import Concatenative.Proofs.Continuation
import Concatenative.Proofs.Stepping
set_option autoImplicit false

namespace Concatenative

namespace Grammar

def brackets : List String := ["(", ")", "[", "]", "\x7b", "\x7d"]

def Numeral (text : String) (n : Int64) : Prop :=
  ∃ digits : List Char, digits ≠ [] ∧ (∀ d ∈ digits, d.isDigit = true) ∧
    (text.toList = digits ∧ n.toInt = Nat.ofDigitChars 10 digits 0 ∨
      text.toList = '-' :: digits ∧ n.toInt = -(Nat.ofDigitChars 10 digits 0 : Nat))

def Quotes (text s : String) : Prop := text = "\"" ++ s ++ "\""

def Labels (text name : String) : Prop := text = name ++ ":" ∧ name ≠ ""

/-- What a word that is no bracket stands for: the first of four kinds that fits. -/
inductive Stands (text : String) : Atom → Prop where
  | integer {n : Int64} (hn : Numeral text n) : Stands text (.literal (.integer n))
  | string {s : String} (hi : ∀ n, ¬ Numeral text n) (hs : Quotes text s) :
      Stands text (.literal (.string s))
  | symbol {name : String} (hi : ∀ n, ¬ Numeral text n) (hs : ∀ s, ¬ Quotes text s)
      (hl : Labels text name) : Stands text (.literal (.symbol name))
  | call (hi : ∀ n, ¬ Numeral text n) (hs : ∀ s, ¬ Quotes text s)
      (hl : ∀ name, ¬ Labels text name) : Stands text (.word text)

/-- A word in an effect that names a parameter. A colon at its end is left out. -/
def Names (text name : String) : Prop :=
  text ∉ brackets ∧ text ≠ "--" ∧
    (Labels text name ∨ text = name ∧ ∀ stem, ¬ Labels text stem)

inductive Instructs (line : Nat) : Atom → Instruction → Prop where
  | push {v : Value} : Instructs line (.literal v) (.push line v)
  | call {name : String} : Instructs line (.word name) (.call line name)

/-- Nothing is called in an array: a word is a symbol there, or a truth value. -/
inductive Holds : Atom → Value → Prop where
  | literal {v : Value} : Holds (.literal v) v
  | yes : Holds (.word "t") (.boolean true)
  | no : Holds (.word "f") (.boolean false)
  | symbol {name : String} (ht : name ≠ "t") (hf : name ≠ "f") :
      Holds (.word name) (.symbol name)

mutual

/-- What stands between the brackets of an effect. -/
inductive Signature : List Token → Effect → Prop where
  | inputs {ts : List Token} {i : List Parameter} (hi : Parameters ts i) :
      Signature ts (.mk i [])
  | divided {ts us : List Token} {d : Token} {i o : List Parameter} (hi : Parameters ts i)
      (hd : d.text = "--") (ho : Parameters us o) : Signature (ts ++ d :: us) (.mk i o)

inductive Parameters : List Token → List Parameter → Prop where
  | nil : Parameters [] []
  | plain {t : Token} {ts : List Token} {name : String} {ps : List Parameter}
      (hn : Names t.text name) (hps : Parameters ts ps) :
      Parameters (t :: ts) (.plain name :: ps)
  | nested {t o c : Token} {us ts : List Token} {name : String} {e : Effect}
      {ps : List Parameter} (hn : Names t.text name) (ho : o.text = "(") (he : Signature us e)
      (hc : c.text = ")") (hps : Parameters ts ps) :
      Parameters (t :: o :: us ++ c :: ts) (.nested name e :: ps)

end

mutual

inductive Program : List Token → Code → Prop where
  | nil : Program [] []
  | cons {ts us : List Token} {line : Nat} {a : Atom} {i : Instruction} {is : Code}
      (he : Element ts line a) (ha : Instructs line a i) (hp : Program us is) :
      Program (ts ++ us) (i :: is)

/-- One thing in brackets or one word, with the line of its first word. -/
inductive Element : List Token → Nat → Atom → Prop where
  | quotation {o c : Token} {ts : List Token} {body : Code} (ho : o.text = "[")
      (hb : Program ts body) (hc : c.text = "]") :
      Element (o :: ts ++ [c]) o.line (.literal (.quotation body))
  | array {o c : Token} {ts : List Token} {items : List Value} (ho : o.text = "\x7b")
      (hi : Items ts items) (hc : c.text = "\x7d") :
      Element (o :: ts ++ [c]) o.line (.literal (.array items))
  | effect {o c : Token} {ts : List Token} {e : Effect} (ho : o.text = "(")
      (he : Signature ts e) (hc : c.text = ")") :
      Element (o :: ts ++ [c]) o.line (.literal (.effect e))
  | atom {t : Token} {a : Atom} (hb : t.text ∉ brackets) (ha : Stands t.text a) :
      Element [t] t.line a

inductive Items : List Token → List Value → Prop where
  | nil : Items [] []
  | cons {ts us : List Token} {line : Nat} {a : Atom} {v : Value} {vs : List Value}
      (he : Element ts line a) (ha : Holds a v) (hi : Items us vs) : Items (ts ++ us) (v :: vs)

end

end Grammar

theorem Text.Decimal.natural?_eq_some_iff {cs : List Char} {n : Nat} :
    natural? cs = some n ↔
      cs ≠ [] ∧ (∀ c ∈ cs, c.isDigit = true) ∧ n = Nat.ofDigitChars 10 cs 0 := by
  unfold natural?
  split
  · next h =>
    obtain ⟨hne, hd⟩ := h
    simp only [Option.some.injEq, hne, ne_eq, not_false_eq_true, true_and, eq_comm (a := n)]
    exact ⟨fun h => ⟨List.all_eq_true.mp hd, h⟩, And.right⟩
  · next h =>
    simp only [reduceCtorEq, false_iff]
    rintro ⟨hne, hd, -⟩
    exact h ⟨hne, List.all_eq_true.mpr hd⟩

namespace Grammar

open Text.Decimal

theorem numeral_iff {text : String} {n : Int64} : integer? text.toList = some n ↔ Numeral text n := by
  have hlo := n.le_toInt
  have hhi := n.toInt_lt
  constructor
  · intro h
    unfold integer? at h
    split at h
    · next rest hr =>
      cases hk : natural? rest with
      | none => simp [hk] at h
      | some k =>
        obtain ⟨hne, hd, rfl⟩ := natural?_eq_some_iff.mp hk
        simp only [hk, Option.ite_none_right_eq_some, Option.some.injEq] at h
        obtain ⟨hb, rfl⟩ := h
        unfold half at hb
        refine ⟨rest, hne, hd, .inr ⟨hr, ?_⟩⟩
        exact Int64.toInt_ofInt_of_le (by omega) (by omega)
    · cases hk : natural? text.toList with
      | none => simp [hk] at h
      | some k =>
        obtain ⟨hne, hd, rfl⟩ := natural?_eq_some_iff.mp hk
        simp only [hk, Option.ite_none_right_eq_some, Option.some.injEq] at h
        obtain ⟨hb, rfl⟩ := h
        unfold half at hb
        refine ⟨text.toList, hne, hd, .inl ⟨rfl, ?_⟩⟩
        exact Int64.toInt_ofInt_of_le (by omega) (by omega)
  · rintro ⟨digits, hne, hd, ⟨ht, hn⟩ | ⟨ht, hn⟩⟩
    · have hk : natural? digits = some _ := natural?_eq_some_iff.mpr ⟨hne, hd, rfl⟩
      obtain ⟨c, cs, rfl⟩ := List.exists_cons_of_ne_nil hne
      have hc : c ≠ '-' := by
        rintro rfl
        exact absurd (hd '-' (by simp)) (by decide)
      have hb : Nat.ofDigitChars 10 (c :: cs) 0 < half := by
        unfold half
        omega
      rw [ht, integer?_of_head rfl hc, hk, Option.bind_some, if_pos hb, ← hn, Int64.ofInt_toInt]
    · have hk : natural? digits = some _ := natural?_eq_some_iff.mpr ⟨hne, hd, rfl⟩
      have hb : Nat.ofDigitChars 10 digits 0 ≤ half := by
        unfold half
        omega
      simp only [ht, integer?, hk, hb, ↓reduceIte, ← hn, Int64.ofInt_toInt]

theorem quotes_iff {text s : String} : Atom.quoted? text = some s ↔ Quotes text s := by
  constructor
  · intro h
    rw [Quotes, ← String.toList_inj, Atom.eq_of_quoted? h]
    simp
  · rintro rfl
    exact Atom.quoted?_quoted s

theorem labels_iff {text name : String} : Atom.symbol? text = some name ↔ Labels text name := by
  constructor
  · exact Atom.eq_of_symbol?
  · rintro ⟨rfl, hn⟩
    exact Atom.symbol?_colon hn

theorem stands_iff {text : String} {a : Atom} : Stands text a ↔ Atom.ofText text = a := by
  have hi : (∀ n, ¬ Numeral text n) ↔ integer? text.toList = none := by
    simp only [← numeral_iff, Option.eq_none_iff_forall_ne_some, ne_eq]
  have hq : (∀ s, ¬ Quotes text s) ↔ Atom.quoted? text = none := by
    simp only [← quotes_iff, Option.eq_none_iff_forall_ne_some, ne_eq]
  have hl : (∀ name, ¬ Labels text name) ↔ Atom.symbol? text = none := by
    simp only [← labels_iff, Option.eq_none_iff_forall_ne_some, ne_eq]
  constructor
  · intro h
    cases h with
    | integer hn => rw [Atom.ofText, numeral_iff.mpr hn]
    | string hn hs => rw [Atom.ofText, hi.mp hn, quotes_iff.mpr hs]
    | symbol hn hs hl => rw [Atom.ofText, hi.mp hn, hq.mp hs, labels_iff.mpr hl]
    | call hn hs hn' => rw [Atom.ofText, hi.mp hn, hq.mp hs, hl.mp hn']
  · rintro rfl
    unfold Atom.ofText
    cases h₁ : integer? text.toList with
    | some n => exact .integer (numeral_iff.mp h₁)
    | none =>
      cases h₂ : Atom.quoted? text with
      | some s => exact .string (hi.mpr h₁) (quotes_iff.mp h₂)
      | none =>
        cases h₃ : Atom.symbol? text with
        | some name => exact .symbol (hi.mpr h₁) (hq.mpr h₂) (labels_iff.mp h₃)
        | none => exact .call (hi.mpr h₁) (hq.mpr h₂) (hl.mpr h₃)

theorem not_bracket_iff {text : String} :
    text ∉ brackets ↔ Mark.ofText text = .none ∨ Mark.ofText text = .dashes := by
  constructor
  · intro h
    cases hm : Mark.ofText text with
    | none => exact .inl rfl
    | dashes => exact .inr rfl
    | opens b =>
      rw [Mark.eq_opening hm] at h
      revert h
      cases b <;> decide
    | closes b =>
      rw [Mark.eq_closing hm] at h
      revert h
      cases b <;> decide
  · intro h hb
    simp only [brackets, List.mem_cons, List.not_mem_nil, or_false] at hb
    rcases hb with rfl | rfl | rfl | rfl | rfl | rfl <;> revert h <;> decide

theorem names_iff {text name : String} :
    Names text name ↔ Mark.ofText text = .none ∧ (Atom.symbol? text).getD text = name := by
  have hm : text ∉ brackets ∧ text ≠ "--" ↔ Mark.ofText text = .none := by
    rw [not_bracket_iff]
    constructor
    · rintro ⟨h | h, hd⟩
      · exact h
      · exact absurd (Mark.eq_dashes h) hd
    · intro h
      refine ⟨.inl h, ?_⟩
      rintro rfl
      revert h
      decide
  have hl : (∀ stem, ¬ Labels text stem) ↔ Atom.symbol? text = none := by
    simp only [← labels_iff, Option.eq_none_iff_forall_ne_some, ne_eq]
  rw [Names, ← and_assoc, hm, hl, ← labels_iff]
  refine and_congr_right fun _ => ?_
  cases Atom.symbol? text with
  | none => simp
  | some stem => simp

mutual

theorem Signature.run {ts : List Token} {e : Effect} (h : Signature ts e) (line : Nat)
    (outer : List (EffectDraft × String)) {c : Token} (hc : c.text = ")") (rest : List Token) :
    (EffectReading.mk line .empty outer).run (ts ++ c :: rest) =
      EffectReading.resume line e rest outer := by
  cases h with
  | @inputs ts i hi =>
    have hin := EffectDraft.settle_inputs i
    rw [hi.run, EffectReading.run_close _ hc]
    simp [EffectDraft.effect, hin]
  | @divided ts us d i o hi hd ho =>
    have hin := EffectDraft.settle_inputs i
    have hout := EffectDraft.settle_outputs i.reverse o
    have hnone : (i.foldl EffectDraft.take .empty).outputs = none :=
      EffectDraft.outputs_eq_none (by rw [hin])
    rw [List.append_assoc, hi.run, List.cons_append, EffectReading.run_divide _ hd hnone]
    simp only [hin]
    rw [ho.run, EffectReading.run_close _ hc]
    simp [EffectDraft.effect, hout]

theorem Parameters.run {ts : List Token} {ps : List Parameter} (h : Parameters ts ps)
    (r : EffectReading) (rest : List Token) :
    r.run (ts ++ rest) = { r with draft := ps.foldl EffectDraft.take r.draft }.run rest := by
  cases h with
  | nil => rfl
  | @plain t ts name ps hn hps =>
    obtain ⟨hm, rfl⟩ := names_iff.mp hn
    rw [List.cons_append, EffectReading.run_name r hm, hps.run]
    rfl
  | @nested t o c us ts name e ps hn ho he hc hps =>
    obtain ⟨hm, rfl⟩ := names_iff.mp hn
    simp only [List.cons_append, List.append_assoc]
    rw [EffectReading.run_name r hm, EffectReading.run_nest _ ho rfl, he.run _ _ hc]
    simp only [EffectReading.resume]
    rw [hps.run]
    simp only [List.foldl_cons, EffectDraft.take]
    rw [← EffectDraft.settle_pending r.draft]

end

theorem instructs_iff {line : Nat} {a : Atom} {i : Instruction} :
    Instructs line a i ↔ a.instruction line = i := by
  constructor
  · rintro (_ | _) <;> rfl
  · rintro rfl
    cases a <;> constructor

theorem holds_iff {a : Atom} {v : Value} : Holds a v ↔ a.item = v := by
  constructor
  · intro h
    cases h with
    | literal => rfl
    | yes => rfl
    | no => rfl
    | symbol ht hf => simp [Atom.item, ht, hf]
  · rintro rfl
    cases a with
    | literal v => exact .literal
    | word name =>
      by_cases ht : name = "t"
      · subst ht
        exact .yes
      · by_cases hf : name = "f"
        · subst hf
          exact .no
        · simp only [Atom.item, ht, hf, if_false]
          exact .symbol ht hf

mutual

theorem Program.run : {ts : List Token} → {is : Code} → Program ts is → (r : Reading) →
    r.effect = none → (rest : List Token) → r.run (ts ++ rest) = (r.addAll is).run rest
  | _, _, .nil, _, _, _ => rfl
  | _, _, .cons he ha hp, r, hr, rest => by
    rw [List.append_assoc, he.run r hr, hp.run _ (by rw [Reading.add_effect, hr])]
    cases ha <;> rfl

theorem Element.run : {ts : List Token} → {line : Nat} → {a : Atom} → Element ts line a →
    (r : Reading) → r.effect = none → (rest : List Token) →
    r.run (ts ++ rest) = (r.add line a).run rest
  | _, _, _, .quotation (o := o) (c := c) ho hb hc, r, hr, rest => by
    have hopen : Mark.ofText o.text = .opens .square := by rw [ho]; decide
    have hclose : Mark.ofText c.text = .closes .square := by rw [hc]; decide
    simp only [List.cons_append, List.append_assoc, List.nil_append]
    rw [Reading.run_enter hr hopen, Reading.enter, hr, hb.run _ rfl, Reading.addAll_quotation,
      Reading.run_leave rfl hclose rfl, List.append_nil, List.reverse_reverse, ← hr]
  | _, _, _, .array (o := o) (c := c) ho hi hc, r, hr, rest => by
    have hopen : Mark.ofText o.text = .opens .curly := by rw [ho]; decide
    have hclose : Mark.ofText c.text = .closes .curly := by rw [hc]; decide
    simp only [List.cons_append, List.append_assoc, List.nil_append]
    rw [Reading.run_enter hr hopen, Reading.enter, hr, hi.run, Reading.run_leave rfl hclose rfl,
      List.append_nil, List.reverse_reverse, ← hr]
  | _, _, _, .effect (o := o) ho he hc, r, hr, rest => by
    have hopen : Mark.ofText o.text = .opens .round := by rw [ho]; decide
    simp only [List.cons_append, List.append_assoc, List.nil_append]
    rw [Reading.run_enter hr hopen, Reading.enter, EffectReading.start,
      Reading.run_effect (he.run o.line [] hc rest) r.code r.frames, ← hr]
  | _, _, _, .atom hb ha, r, hr, rest => by
    rw [List.cons_append, List.nil_append, Reading.run_atom hr (not_bracket_iff.mp hb),
      stands_iff.mp ha]

theorem Items.run : {ts : List Token} → {vs : List Value} → Items ts vs → (code : Code) →
    (l : Nat) → (items : List Value) → (frames : List Frame) → (rest : List Token) →
    (Reading.mk code (.array l items :: frames) none).run (ts ++ rest) =
      (Reading.mk code (.array l (vs.reverse ++ items) :: frames) none).run rest
  | _, _, .nil, _, _, _, _, _ => rfl
  | _, _, .cons he ha hi, code, l, items, frames, rest => by
    rw [List.append_assoc, he.run _ rfl, Reading.add, hi.run, holds_iff.mp ha]
    simp

end

/-- The words behind a draft. A name that is held back is the last of them. -/
inductive Drafts : EffectDraft → List Token → Prop where
  | inputs {ts : List Token} {i : List Parameter} (hi : Parameters ts i.reverse) :
      Drafts ⟨i, none, none⟩ ts
  | outputs {ts us : List Token} {d : Token} {i o : List Parameter}
      (hi : Parameters ts i.reverse) (hd : d.text = "--") (ho : Parameters us o.reverse) :
      Drafts ⟨i, some o, none⟩ (ts ++ d :: us)
  | pending {i : List Parameter} {o : Option (List Parameter)} {ts : List Token} {t : Token}
      {name : String} (hd : Drafts ⟨i, o, none⟩ ts) (hn : Names t.text name) :
      Drafts ⟨i, o, some name⟩ (ts ++ [t])

theorem Parameters.append {ts us : List Token} {ps qs : List Parameter} (h : Parameters ts ps)
    (hq : Parameters us qs) : Parameters (ts ++ us) (ps ++ qs) := by
  cases h with
  | nil => exact hq
  | plain hn hps => exact .plain hn (hps.append hq)
  | nested hn ho he hc hps =>
    simp only [List.cons_append, List.append_assoc]
    exact .nested hn ho he hc (hps.append hq)

namespace Drafts

theorem add {d : EffectDraft} {ts us : List Token} {p : Parameter} (h : Drafts d ts)
    (hd : d.pending = none) (hp : Parameters us [p]) : Drafts (d.add p) (ts ++ us) := by
  cases h with
  | inputs hi => exact .inputs (by simpa using hi.append hp)
  | outputs hi ht ho =>
    rw [List.append_assoc]
    exact .outputs hi ht (by simpa using ho.append hp)
  | pending => cases hd

theorem settle {d : EffectDraft} {ts : List Token} (h : Drafts d ts) : Drafts d.settle ts := by
  cases h with
  | inputs hi => exact .inputs hi
  | outputs hi hd ho => exact .outputs hi hd ho
  | @pending i o ts t name hd hn =>
    have ha := hd.add rfl (.plain hn .nil)
    cases o <;> exact ha

theorem effect {d : EffectDraft} {ts : List Token} (h : Drafts d ts) : Signature ts d.effect := by
  have hs := h.settle
  have hp := d.settle_pending
  unfold EffectDraft.effect
  generalize d.settle = d' at hs hp
  cases hs with
  | inputs hi => exact .inputs hi
  | outputs hi hd ho => exact .divided hi hd ho
  | pending => cases hp

theorem name {d : EffectDraft} {ts : List Token} {t : Token} {name : String} (h : Drafts d ts)
    (hn : Names t.text name) : Drafts { d.settle with pending := some name } (ts ++ [t]) := by
  have hs := h.settle
  have hp := d.settle_pending
  generalize d.settle = d' at hs hp
  obtain ⟨i, o, p⟩ := d'
  obtain rfl : p = none := hp
  exact .pending hs hn

theorem divide {d : EffectDraft} {ts : List Token} {t : Token} (h : Drafts d ts)
    (hd : d.outputs = none) (ht : t.text = "--") :
    Drafts { d.settle with outputs := some [] } (ts ++ [t]) := by
  have hs := h.settle
  have hp := d.settle_pending
  have ho := d.settle_outputs_eq_none hd
  generalize d.settle = d' at hs hp ho
  cases hs with
  | inputs hi => exact .outputs hi ht .nil
  | outputs => cases ho
  | pending => cases hp

end Drafts

inductive Nests : Nat → List (EffectDraft × String) → List Token → Prop where
  | outermost {o : Token} (ho : o.text = "(") : Nests o.line [] [o]
  | inner {line : Nat} {outer : List (EffectDraft × String)} {ts us : List Token}
      {d : EffectDraft} {t o : Token} {name : String} (hts : Nests line outer ts)
      (hd : Drafts d us) (hp : d.pending = none) (hn : Names t.text name) (ho : o.text = "(") :
      Nests line ((d, name) :: outer) (ts ++ us ++ [t, o])

def ReadsEffect (r : EffectReading) (ts : List Token) : Prop :=
  ∃ front back, ts = front ++ back ∧ Nests r.line r.outer front ∧ Drafts r.draft back

theorem ReadsEffect.step {r : EffectReading} {ts : List Token} (h : ReadsEffect r ts) {t : Token}
    {p : EffectProgress} (hs : r.step t = .ok p) :
    match p with
    | .more r' => ReadsEffect r' (ts ++ [t])
    | .closed e => Element (ts ++ [t]) r.line (.literal (.effect e)) := by
  obtain ⟨line, draft, outer⟩ := r
  obtain ⟨front, back, rfl, hf, hb⟩ := h
  unfold EffectReading.step at hs
  split at hs
  · next hm =>
    have hc : t.text = ")" := Mark.eq_closing hm
    cases hs
    cases hf with
    | outermost ho => exact .effect ho hb.effect hc
    | @inner _ outer ts us d t' o name hts hd hp hn ho =>
      refine ⟨ts, us ++ (t' :: o :: back ++ [t]), by simp, hts, ?_⟩
      exact hd.add hp (.nested hn ho hb.effect hc .nil)
  · cases hs
  · next hm =>
    have ho : t.text = "(" := Mark.eq_opening hm
    unfold EffectReading.nest at hs
    cases hb with
    | inputs => cases hs
    | outputs => cases hs
    | @pending i out us t' name hd hn =>
      cases hs
      exact ⟨front ++ us ++ [t', t], [], by simp, .inner hf hd rfl hn ho, .inputs .nil⟩
  · cases hs
  · next hm =>
    have hd : t.text = "--" := Mark.eq_dashes hm
    unfold EffectReading.divide at hs
    split at hs
    · next hnone =>
      cases hs
      exact ⟨front, back ++ [t], by simp, hf, hb.divide hnone hd⟩
    · cases hs
  · next hm =>
    cases hs
    exact ⟨front, back ++ [t], by simp, hf, hb.name (names_iff.mpr ⟨hm, rfl⟩)⟩

/-- The words behind the code and the open brackets of a reading. -/
inductive Opens : Code → List Frame → List Token → Prop where
  | top {ts : List Token} {code : Code} (hp : Program ts code.reverse) : Opens code [] ts
  | quotation {code body : Code} {frames : List Frame} {ts us : List Token} {o : Token}
      (hts : Opens code frames ts) (ho : o.text = "[") (hb : Program us body.reverse) :
      Opens code (.quotation o.line body :: frames) (ts ++ o :: us)
  | array {code : Code} {items : List Value} {frames : List Frame} {ts us : List Token}
      {o : Token} (hts : Opens code frames ts) (ho : o.text = "\x7b")
      (hi : Items us items.reverse) :
      Opens code (.array o.line items :: frames) (ts ++ o :: us)

theorem Program.append {ts us : List Token} {is js : Code} (h : Program ts is)
    (hj : Program us js) : Program (ts ++ us) (is ++ js) := by
  cases h with
  | nil => exact hj
  | cons he ha hp =>
    rw [List.append_assoc]
    exact .cons he ha (hp.append hj)

theorem Items.append {ts us : List Token} {vs ws : List Value} (h : Items ts vs)
    (hw : Items us ws) : Items (ts ++ us) (vs ++ ws) := by
  cases h with
  | nil => exact hw
  | cons he ha hi =>
    rw [List.append_assoc]
    exact .cons he ha (hi.append hw)

theorem Element.program {ts : List Token} {line : Nat} {a : Atom} (h : Element ts line a) :
    Program ts [a.instruction line] := by
  have hp := Program.cons h (instructs_iff.mpr rfl) .nil
  rwa [List.append_nil] at hp

theorem Element.items {ts : List Token} {line : Nat} {a : Atom} (h : Element ts line a) :
    Items ts [a.item] := by
  have hi := Items.cons h (holds_iff.mpr rfl) .nil
  rwa [List.append_nil] at hi

theorem Opens.add {r : Reading} {ts us : List Token} {line : Nat} {a : Atom}
    (h : Opens r.code r.frames ts) (he : Element us line a) :
    Opens (r.add line a).code (r.add line a).frames (ts ++ us) := by
  obtain ⟨code, frames, effect⟩ := r
  cases h with
  | top hp => exact .top (by simpa [Reading.add] using hp.append he.program)
  | quotation hts ho hb =>
    rw [List.append_assoc]
    exact .quotation hts ho (by simpa using hb.append he.program)
  | array hts ho hi =>
    rw [List.append_assoc]
    exact .array hts ho (by simpa using hi.append he.items)

def Reads (r : Reading) (ts : List Token) : Prop :=
  match r.effect with
  | none => Opens r.code r.frames ts
  | some e => ∃ front back, ts = front ++ back ∧ Opens r.code r.frames front ∧ ReadsEffect e back

theorem Opens.enter {code : Code} {frames : List Frame} {ts : List Token}
    (h : Opens code frames ts) {t : Token} {b : Bracket} (hb : t.text = b.opening) :
    Reads ((Reading.mk code frames none).enter t.line b) (ts ++ [t]) := by
  cases b with
  | square => exact .quotation h hb .nil
  | curly => exact .array h hb .nil
  | round => exact ⟨ts, [t], rfl, h, [t], [], rfl, .outermost hb, .inputs .nil⟩

theorem Opens.leave {code : Code} {frames : List Frame} {ts : List Token}
    (h : Opens code frames ts) {t : Token} {b : Bracket} (hb : t.text = b.closing) {r : Reading}
    (hr : (Reading.mk code frames none).leave b = .ok r) : Reads r (ts ++ [t]) := by
  cases h with
  | top hp => cases hr
  | @quotation code body frames ts us o hts ho hp =>
    cases b with
    | square =>
      cases hr
      have he := Element.quotation ho hp hb
      have ha := Opens.add (r := ⟨code, frames, none⟩) hts he
      simpa [Reads] using ha
    | curly => cases hr
    | round => cases hr
  | @array code items frames ts us o hts ho hi =>
    cases b with
    | curly =>
      cases hr
      have he := Element.array ho hi hb
      have ha := Opens.add (r := ⟨code, frames, none⟩) hts he
      simpa [Reads] using ha
    | square => cases hr
    | round => cases hr

/-- One word more is read: no word is lost, and what is open stays derived. -/
theorem Reads.step {r r' : Reading} {ts : List Token} (h : Reads r ts) {t : Token}
    (hs : r.step t = .ok r') : Reads r' (ts ++ [t]) := by
  obtain ⟨code, frames, effect⟩ := r
  cases effect with
  | some e =>
    obtain ⟨front, back, rfl, hf, hb⟩ := h
    simp only [Reading.step] at hs
    cases hp : e.step t with
    | error err => simp [hp] at hs
    | ok p =>
      have hstep := hb.step hp
      rw [hp] at hs
      cases p with
      | more e' =>
        cases hs
        exact ⟨front, back ++ [t], by simp, hf, hstep⟩
      | closed eff =>
        cases hs
        have ha := Opens.add (r := ⟨code, frames, none⟩) hf hstep
        simpa [Reads] using ha
  | none =>
    simp only [Reading.step] at hs
    cases hm : Mark.ofText t.text with
    | opens b =>
      rw [hm] at hs
      cases hs
      exact Opens.enter h (Mark.eq_opening hm)
    | closes b =>
      rw [hm] at hs
      exact Opens.leave h (Mark.eq_closing hm) hs
    | dashes =>
      rw [hm] at hs
      cases hs
      have he := Element.atom (not_bracket_iff.mpr (.inr hm)) (stands_iff.mpr rfl)
      simpa [Reads] using Opens.add (r := ⟨code, frames, none⟩) h he
    | none =>
      rw [hm] at hs
      cases hs
      have he := Element.atom (not_bracket_iff.mpr (.inl hm)) (stands_iff.mpr rfl)
      simpa [Reads] using Opens.add (r := ⟨code, frames, none⟩) h he

theorem Reads.run {r r' : Reading} {ts us : List Token} (h : Reads r ts)
    (hr : r.run us = .ok r') : Reads r' (ts ++ us) := by
  induction us generalizing r ts with
  | nil =>
    cases hr
    rwa [List.append_nil]
  | cons t us ih =>
    rw [Reading.run_cons] at hr
    cases hs : r.step t with
    | error e =>
      rw [hs] at hr
      cases hr
    | ok s =>
      rw [hs] at hr
      have hrun := ih (h.step hs) hr
      rwa [List.append_assoc] at hrun

end Grammar

theorem Grammar.program_of_parse {source : String} {line : Nat} {code : Code}
    (h : Code.parse source line = .ok code) : Program (Token.words source line) code := by
  have hstart : Reads .start [] := .top .nil
  have hr : Reads (Reading.start.onto code.reverse) (Token.words source line) :=
    hstart.run (Code.parse_eq_ok h)
  cases hr with
  | top hp => simpa [Reading.start, Reading.onto] using hp

/-- A text is code exactly if its words derive that code in the grammar. -/
theorem Code.parse_eq_ok_iff (source : String) (line : Nat) (code : Code) :
    Code.parse source line = .ok code ↔ Grammar.Program (Token.words source line) code := by
  constructor
  · exact Grammar.program_of_parse
  · intro h
    have hr := h.run .start rfl []
    rw [List.append_nil, Reading.start, Reading.addAll_code] at hr
    rw [Code.parse_eq_run, Reading.start, hr]
    simp [Reading.run, Reading.finish, pure, Except.pure, Except.bind]

end Concatenative
