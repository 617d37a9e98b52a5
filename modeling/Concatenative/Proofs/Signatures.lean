import Concatenative.Proofs.Grammar
import Concatenative.Proofs.Layout
import Concatenative.Proofs.Redefinition
set_option autoImplicit false

/-!
The written form of an effect. It is read as that effect exactly if all names in the effect can be
written. Any other name loses a colon, is taken for a mark or a comment, or stands apart from the
effect that it carries.
-/
namespace Concatenative
open Text Grammar

theorem Grammar.Program.signature {ts : List Token} {l : Nat} {e : Effect}
    (h : Program ts [.push l (.effect e)]) :
    ∃ o us c, ts = o :: us ++ [c] ∧ o.text = "(" ∧ Signature us e ∧ c.text = ")" := by
  cases h with
  | cons he ha hp =>
    cases hp
    cases ha
    cases he with
    | effect ho hs hc => exact ⟨_, _, _, by simp, ho, hs, hc⟩
    | atom hb hs => cases hs

theorem Effect.parse_iff_code {source : String} {e : Effect} :
    Effect.parse source = .ok e ↔ ∃ l, Code.parse source 1 = .ok [.push l (.effect e)] := by
  constructor
  · exact Effect.parse_code
  · rintro ⟨l, h⟩
    obtain ⟨o, us, c, hw, ho, hs, hc⟩ := (program_of_parse h).signature
    exact Effect.parse_ok_iff_run.mpr ⟨o, us ++ [c], hw, ho, hs.run o.line [] hc []⟩

namespace Token
open Lexeme

theorem scan_shaped {keep : Bool} {t : Token} {rest : String} (h : t.Shaped keep rest.toList) :
    scan (t.text ++ rest) t.line keep =
      t :: scan rest (t.line + t.text.toList.count '\n') keep := by
  rw [scan, String.toList_append, Scan.tokens_shaped h]
  rfl

theorem scan_blank (rest : String) (line : Nat) :
    scan (" " ++ rest) line false = scan rest line false := by
  simp [scan, Scan.step, Mode.next, Mode.emit, Mode.newlineToken, lineAfter, isSeparator]

/-- The words of a text, if there is no comment in it. -/
def Spells (source : String) (ws : List String) : Prop :=
  ∀ line, (scan source line false).all isWord = true → (scan source line false).map text = ws

theorem Spells.shaped {w rest : String} {ws : List String} (h : Spells rest ws)
    (hw : ∀ line, (⟨.word, w, line⟩ : Token).Shaped false rest.toList) :
    Spells (w ++ rest) (w :: ws) := by
  intro line ha
  have hs := scan_shaped (hw line)
  dsimp only at hs
  rw [hs] at ha ⊢
  rw [List.all_cons, Bool.and_eq_true] at ha
  rw [List.map_cons, h _ ha.2]

theorem Spells.blank {rest : String} {ws : List String} (h : Spells rest ws) :
    Spells (" " ++ rest) ws := by
  intro line
  rw [scan_blank]
  exact h line

theorem Spells.cons {w rest : String} {ws : List String} (h : Spells rest ws)
    (hw : Whole w.toList) : Spells (w ++ " " ++ rest) (w :: ws) := by
  rw [String.append_assoc]
  refine h.blank.shaped fun line => ?_
  rcases hw with hb | hq
  · exact .bare hb (by simp [isSeparator])
  · exact .quoted hq

/-- What follows a lone backslash on its line is a comment, so there is nothing to show. -/
theorem spells_remark (rest : String) (ws : List String) : Spells ("\\" ++ " " ++ rest) ws := by
  intro line ha
  have hbody := List.all_eq_true.mp (List.all_takeWhile (p := (· != '\n')) (l := rest.toList))
  have htail := List.head?_dropWhile_not (· != '\n') rest.toList
  have hrest := List.takeWhile_append_dropWhile (p := (· != '\n')) (l := rest.toList)
  revert hbody htail hrest
  generalize rest.toList.takeWhile (· != '\n') = body
  generalize rest.toList.dropWhile (· != '\n') = tail
  intro hbody htail hrest
  have hs : (⟨.comment, String.ofList ('\\' :: ' ' :: body), line⟩ : Token).Shaped false
      (String.ofList tail).toList := by
    refine .comment ⟨' ' :: body, by simp, ?_, by simp [isSeparator]⟩ ?_
    · intro hn
      have hm : '\n' ∈ body := by simpa using hn
      simpa using hbody '\n' hm
    · intro c hc
      rw [String.toList_ofList, Option.mem_def] at hc
      rw [hc] at htail
      simpa using htail
  have hsplit : "\\" ++ " " ++ rest =
      String.ofList ('\\' :: ' ' :: body) ++ String.ofList tail := by
    rw [← String.toList_inj]
    simp [hrest]
  rw [hsplit, scan_shaped hs] at ha
  simp [isWord] at ha

theorem text_ne_remark {source : String} {line : Nat} {t : Token} (h : t ∈ words source line) :
    t.text ≠ "\\" := by
  obtain ⟨hm, hw⟩ := List.mem_filter.mp h
  obtain ⟨rest, hs⟩ := (laid_scan source line false).shaped hm
  intro ht
  have hcs : t.text.toList = ['\\'] := by simp [ht]
  cases hs with
  | newline hk => cases hk
  | quoted hq =>
    obtain ⟨body, -, hb⟩ := hq
    simp [hb] at hcs
  | unclosed hu =>
    obtain ⟨body, -, hb⟩ := hu.eq_cons
    simp [hb] at hcs
  | comment hc hr => cases hw
  | bare hb hr => exact hb.noComment hcs

end Token

mutual

/-- The words that the written form of an effect consists of. A string and the colon after it are
two of them. -/
def Effect.spelt : Effect → List String
  | .mk i o => "(" :: Parameter.speltList i ++ "--" :: Parameter.speltList o ++ [")"]

def Parameter.spelt : Parameter → List String
  | .plain name => [name]
  | .nested name effect =>
    (if name.toList.head? = some '"' then [name, ":"] else [name ++ ":"]) ++ effect.spelt

def Parameter.speltList : List Parameter → List String
  | [] => []
  | p :: ps => p.spelt ++ Parameter.speltList ps

end

theorem Parameter.IsName.quoted {name : String} (h : IsName name)
    (hq : name.toList.head? = some '"') : Lexeme.Quoted name.toList := by
  rcases h.cases with ⟨hb | hs, -, -⟩ | ⟨hne, hb⟩
  · exact absurd hq hb.unquoted
  · exact hs
  · have hh := hb.unquoted
    rw [String.toList_append, List.head?_append, hq] at hh
    exact absurd rfl hh

section
open Lexeme Token

theorem spells_intercalate {w : String} {ws vs : List String} (h : Spells (" ".intercalate ws) vs)
    (hne : ws ≠ []) (hw : Whole w.toList) : Spells (" ".intercalate (w :: ws)) (w :: vs) := by
  rw [String.intercalate_cons_of_ne_nil hne]
  exact h.cons hw

mutual

theorem Effect.spells : (e : Effect) → (∀ p ∈ e.parameters, p.Named) → {rest vs : List String} →
    Spells (" ".intercalate (")" :: rest)) (")" :: vs) →
    Spells (" ".intercalate (e.pieces ++ rest)) (e.spelt ++ vs)
  | .mk i o, h, rest, vs, hclose => by
    have hi : ∀ p ∈ Parameter.parametersList i, p.Named := fun p hp =>
      h p (by simp [Effect.parameters, hp])
    have ho : ∀ p ∈ Parameter.parametersList o, p.Named := fun p hp =>
      h p (by simp [Effect.parameters, hp])
    have hout := Parameter.spells_list o ho hclose (by simp)
    have hdash := spells_intercalate (w := "--") hout (by simp) (whole_mark (by decide))
    have hin := Parameter.spells_list i hi hdash (by simp)
    have hopen := spells_intercalate (w := "(") hin (by simp) (whole_mark (by decide))
    simpa [Effect.pieces, Effect.spelt] using hopen

theorem Parameter.spells : (p : Parameter) → (∀ q ∈ p.parameters, q.Named) →
    {rest vs : List String} → Spells (" ".intercalate rest) vs → rest ≠ [] →
    Spells (" ".intercalate (p.pieces ++ rest)) (p.spelt ++ vs)
  | .plain name, h, rest, vs, hrest, hne => by
    have hn := h (.plain name) (by simp [Parameter.parameters])
    rcases Parameter.IsName.cases hn with ⟨hw, -, -⟩ | ⟨hs, hb⟩
    · exact spells_intercalate hrest hne hw
    · by_cases hr : name = "\\"
      · -- The name begins a comment, and then nothing is claimed of the words.
        subst hr
        simp only [Parameter.pieces, List.cons_append, List.nil_append,
          String.intercalate_cons_of_ne_nil hne]
        exact spells_remark _ _
      · exact spells_intercalate hrest hne (.inl (hb.of_append_colon hs hr))
  | .nested name effect, h, rest, vs, hrest, hne => by
    have hn := h (.nested name effect) (by simp [Parameter.parameters])
    have he : ∀ q ∈ effect.parameters, q.Named := fun q hq =>
      h q (by simp [Parameter.parameters, hq])
    have hclose := spells_intercalate (w := ")") hrest hne (whole_mark (by decide))
    have hspell := Effect.spells effect he hclose
    have hne' : effect.pieces ++ rest ≠ [] := by simp [hne]
    simp only [Parameter.pieces, Parameter.spelt, List.cons_append, List.append_assoc]
    by_cases hq : name.toList.head? = some '"'
    · have hcolon := hspell.cons (w := ":") (.inl (by decide))
      have hboth := hcolon.shaped (w := name) fun _ => .quoted (Parameter.IsName.quoted hn hq)
      rw [if_pos hq, String.intercalate_cons_of_ne_nil hne']
      simpa only [String.append_assoc, List.cons_append, List.nil_append] using hboth
    · rw [if_neg hq]
      exact spells_intercalate hspell hne' (.inl (hn.legible hq).2)

theorem Parameter.spells_list : (ps : List Parameter) →
    (∀ q ∈ Parameter.parametersList ps, q.Named) → {rest vs : List String} →
    Spells (" ".intercalate rest) vs → rest ≠ [] →
    Spells (" ".intercalate (Parameter.piecesList ps ++ rest)) (Parameter.speltList ps ++ vs)
  | [], _, _, _, hrest, _ => hrest
  | p :: ps, h, rest, vs, hrest, hne => by
    have hps := Parameter.spells_list ps (fun q hq => h q (by simp [Parameter.parametersList, hq]))
      hrest hne
    have hp := Parameter.spells p (fun q hq => h q (by simp [Parameter.parametersList, hq])) hps
      (by simp [hne])
    simpa [Parameter.piecesList, Parameter.speltList] using hp

end

end

namespace Text

def strokes (ws : List String) : Nat := (ws.flatMap String.toList).count '\\'

@[simp] theorem strokes_nil : strokes [] = 0 := rfl

@[simp] theorem strokes_cons (w : String) (ws : List String) :
    strokes (w :: ws) = w.toList.count '\\' + strokes ws := by
  simp [strokes]

@[simp] theorem strokes_append (ws vs : List String) :
    strokes (ws ++ vs) = strokes ws + strokes vs := by
  simp [strokes]

theorem count_intercalate (ws : List String) :
    (" ".intercalate ws).toList.count '\\' = strokes ws := by
  induction ws with
  | nil => rfl
  | cons w ws ih =>
    by_cases hne : ws = []
    · simp [hne]
    · rw [String.intercalate_cons_of_ne_nil hne, strokes_cons, ← ih]
      simp

end Text

mutual

theorem Effect.strokes_pieces :
    (e : Effect) → strokes e.pieces = strokes (e.parameters.map Parameter.name)
  | .mk i o => by
    simp [Effect.pieces, Effect.parameters, Parameter.strokes_piecesList i,
      Parameter.strokes_piecesList o]

theorem Parameter.strokes_pieces :
    (p : Parameter) → strokes p.pieces = strokes (p.parameters.map Parameter.name)
  | .plain name => by simp [Parameter.pieces, Parameter.parameters, Parameter.name]
  | .nested name effect => by
    simp [Parameter.pieces, Parameter.parameters, Parameter.name, Effect.strokes_pieces effect]

theorem Parameter.strokes_piecesList : (ps : List Parameter) →
    strokes (Parameter.piecesList ps) =
      strokes ((Parameter.parametersList ps).map Parameter.name)
  | [] => rfl
  | p :: ps => by
    simp [Parameter.piecesList, Parameter.parametersList, Parameter.strokes_pieces p,
      Parameter.strokes_piecesList ps]

end

namespace Grammar

theorem Names.count {text name : String} (h : Names text name) :
    text.toList.count '\\' = name.toList.count '\\' := by
  rcases h.2.2 with ⟨rfl, -⟩ | ⟨rfl, -⟩
  · simp
  · rfl

mutual

theorem Signature.strokes {ts : List Token} {e : Effect} (h : Signature ts e) :
    strokes (ts.map Token.text) = strokes (e.parameters.map Parameter.name) := by
  cases h with
  | inputs hi => simp [Effect.parameters, Parameter.parametersList, hi.strokes]
  | divided hi hd ho => simp [Effect.parameters, hi.strokes, ho.strokes, hd]

theorem Parameters.strokes {ts : List Token} {ps : List Parameter} (h : Parameters ts ps) :
    strokes (ts.map Token.text) = strokes ((Parameter.parametersList ps).map Parameter.name) := by
  cases h with
  | nil => rfl
  | plain hn hps =>
    simp [Parameter.parametersList, Parameter.parameters, Parameter.name, hn.count, hps.strokes]
  | nested hn ho he hc hps =>
    simp [Parameter.parametersList, Parameter.parameters, Parameter.name, hn.count, hps.strokes,
      he.strokes, ho, hc]

end

end Grammar

namespace Token

/-- The backslashes of a text are those of its words and of its comments, which have one each at
least. -/
theorem Laid.strokes_le {place : List Char → Token → Prop} {before cs : List Char}
    {ts : List Token} (h : Laid false place before cs ts) :
    strokes ((ts.filter isWord).map text) + ts.countP (!·.isWord) ≤ cs.count '\\' := by
  induction h with
  | last hg => simp
  | @next before gap rest t ts hg hp hs hl ih =>
    simp only [List.count_append]
    cases hw : t.isWord with
    | true =>
      rw [List.filter_cons_of_pos hw, List.countP_cons_of_neg (by simp [hw]), List.map_cons,
        strokes_cons]
      omega
    | false =>
      have ht : 0 < t.text.toList.count '\\' := by
        cases hs with
        | newline hk => cases hk
        | quoted hq => cases hw
        | unclosed hu => cases hw
        | bare hb hr => cases hw
        | comment hc hr =>
          obtain ⟨body, hb, -⟩ := hc
          simp [hb]
      rw [List.filter_cons_of_neg (by simp [hw]), List.countP_cons_of_pos (by simp [hw])]
      omega

theorem all_isWord {source : String} {line : Nat}
    (h : source.toList.count '\\' ≤ strokes ((words source line).map text)) :
    (scan source line false).all isWord = true := by
  have hle := (laid_scan source line false).strokes_le
  have hz : (scan source line false).countP (!·.isWord) = 0 := by
    unfold words at h
    omega
  rw [List.all_eq_true]
  intro t ht
  simpa using List.countP_eq_zero.mp hz t ht

end Token

namespace Grammar

theorem Names.printable {name : String} (h : Names name name) (hr : name ≠ "\\") :
    (Parameter.plain name).Printable := by
  obtain ⟨hb, hd, hl⟩ := h
  refine ⟨?_, ?_⟩
  · simp only [brackets, List.mem_cons, List.not_mem_nil, or_false, not_or] at hb ⊢
    simp only [hb, hd, hr, not_false_eq_true, and_self]
  · rintro ⟨hsize, hlast⟩
    obtain ⟨front, hf⟩ := List.getLast?_eq_some_iff.mp hlast
    have hname : name = String.ofList front ++ ":" := by
      rw [← String.toList_inj]
      simp [hf]
    rcases hl with ⟨hself, -⟩ | ⟨-, hnone⟩
    · have hlen := congrArg String.length hself
      simp at hlen
    · refine hnone (String.ofList front) ⟨hname, ?_⟩
      intro he
      rw [hname, he] at hsize
      exact absurd hsize (by decide)

mutual

/-- An effect that is read from its own written form has names that can be written. Both sides go on
after the effect, so that the recursion also tells where the effect ends. -/
theorem Signature.printable {ts : List Token} {e : Effect} (h : Signature ts e)
    (hr : ∀ t ∈ ts, t.text ≠ "\\") {rest rest' : List String}
    (he : "(" :: ts.map Token.text ++ ")" :: rest = e.spelt ++ rest') :
    (∀ p ∈ e.parameters, p.Printable) ∧ rest = rest' := by
  cases h with
  | @inputs ts i hi =>
    -- The dashes are always written, so they are read too.
    simp only [Effect.spelt, List.cons_append, List.append_assoc, List.cons.injEq, true_and] at he
    obtain ⟨-, hrest⟩ := hi.printable hr he
    simp at hrest
  | @divided ts us d i o hi hd ho =>
    simp only [List.forall_mem_append, List.forall_mem_cons] at hr
    simp only [Effect.spelt, List.cons_append, List.append_assoc, List.cons.injEq, true_and,
      List.map_append, List.map_cons, hd, List.nil_append] at he
    obtain ⟨hin, hdash⟩ := hi.printable hr.1 he
    obtain ⟨hout, hclose⟩ := ho.printable hr.2.2 (List.cons.inj hdash).2
    refine ⟨?_, (List.cons.inj hclose).2⟩
    simp only [Effect.parameters, List.forall_mem_append]
    exact ⟨hin, hout⟩

theorem Parameters.printable {ts : List Token} {ps : List Parameter} (h : Parameters ts ps)
    (hr : ∀ t ∈ ts, t.text ≠ "\\") {rest rest' : List String}
    (he : ts.map Token.text ++ rest = Parameter.speltList ps ++ rest') :
    (∀ p ∈ Parameter.parametersList ps, p.Printable) ∧ rest = rest' := by
  cases h with
  | nil => exact ⟨by simp [Parameter.parametersList], he⟩
  | @plain t ts name ps hn hps =>
    obtain ⟨ht, hts⟩ := List.forall_mem_cons.mp hr
    simp only [Parameter.speltList, Parameter.spelt, List.map_cons, List.cons_append,
      List.nil_append, List.cons.injEq] at he
    obtain ⟨rfl, he⟩ := he
    obtain ⟨hprint, hrest⟩ := hps.printable hts he
    refine ⟨?_, hrest⟩
    simp only [Parameter.parametersList, Parameter.parameters, List.cons_append, List.nil_append,
      List.forall_mem_cons]
    exact ⟨hn.printable ht, hprint⟩
  | @nested t o c us ts name e ps hn ho hs hc hps =>
    simp only [List.cons_append, List.forall_mem_cons, List.forall_mem_append] at hr
    obtain ⟨-, -, hus, -, hts⟩ := hr
    -- After a string the colon would stand where the bracket is.
    have hq : name.toList.head? ≠ some '"' := by
      intro hq
      simp [Parameter.speltList, Parameter.spelt, hq, ho] at he
    simp only [Parameter.speltList, Parameter.spelt, if_neg hq, List.map_cons, List.map_append,
      List.cons_append, List.nil_append, List.append_assoc, List.cons.injEq, ho, hc] at he
    obtain ⟨hinner, hafter⟩ := hs.printable hus he.2
    obtain ⟨hprint, hrest⟩ := hps.printable hts hafter
    refine ⟨?_, hrest⟩
    simp only [Parameter.parametersList, Parameter.parameters, List.cons_append,
      List.forall_mem_cons, List.forall_mem_append]
    exact ⟨hq, hinner, hprint⟩

end

end Grammar

theorem Code.eq_of_eraseLines {code : Code} {l : Nat} {e : Effect}
    (h : code.eraseLines = Code.eraseLines [.push l (.effect e)]) :
    ∃ l', code = [.push l' (.effect e)] := by
  simp only [eraseLines, mapLines, List.map_cons, List.map_nil, Instruction.mapLines,
    Value.mapLines, List.map_eq_singleton_iff] at h
  obtain ⟨i, rfl, hi⟩ := h
  cases i with
  | call k name => cases hi
  | push k v =>
    cases v with
    | effect e' =>
      obtain rfl : e' = e := by simpa [Instruction.mapLines, Value.mapLines] using hi
      exact ⟨k, rfl⟩
    | _ => simp [Instruction.mapLines, Value.mapLines] at hi

namespace Effect
open Token

theorem named_of_parse {source : String} {e : Effect} (h : Effect.parse source = .ok e) :
    ∀ p ∈ e.parameters, p.Named := by
  obtain ⟨l, hl⟩ := Effect.parse_code h
  rcases Code.pushed_of_parse hl (List.mem_singleton_self _) with hf | ⟨name, hv, -⟩
  · exact hf
  · cases hv

theorem spells_text {e : Effect} (hn : ∀ p ∈ e.parameters, p.Named) : Spells e.text e.spelt := by
  have hclose : Spells (" ".intercalate [")"]) [")"] := fun line _ => by
    rw [String.intercalate_singleton]
    rfl
  simpa [Effect.text] using Effect.spells e hn hclose

/-- If the written form of an effect is read as that effect, there is no comment in it, since every
backslash that is written belongs to a name and every name is read. -/
theorem words_text {e : Effect} (hn : ∀ p ∈ e.parameters, p.Named) {o c : Token}
    {us : List Token} (hw : words e.text 1 = o :: us ++ [c]) (ho : o.text = "(")
    (hs : Signature us e) (hc : c.text = ")") :
    "(" :: us.map Token.text ++ [")"] = e.spelt := by
  have hall : (scan e.text 1 false).all isWord = true := by
    apply all_isWord
    rw [hw, Effect.text, count_intercalate, e.strokes_pieces]
    simp [hs.strokes, ho, hc]
  have hscan : scan e.text 1 false = o :: us ++ [c] := by
    rw [← hw, words, List.filter_eq_self.mpr (List.all_eq_true.mp hall)]
  rw [← spells_text hn 1 hall, hscan]
  simp [ho, hc]

/-- The written form of an effect that was read from a text is read as the same effect exactly if
all names in the effect can be written. -/
theorem parse_text_iff {source : String} {e : Effect} (h : Effect.parse source = .ok e) :
    Effect.parse e.text = .ok e ↔ ∀ p ∈ e.parameters, p.Printable := by
  have hnamed := named_of_parse h
  constructor
  · intro ht
    obtain ⟨l, hl⟩ := Effect.parse_code ht
    obtain ⟨o, us, c, hw, ho, hs, hc⟩ := (program_of_parse hl).signature
    have hr : ∀ t ∈ us, t.text ≠ "\\" := by
      intro t hu
      have hm : t ∈ words e.text 1 := by simp [hw, hu]
      exact text_ne_remark hm
    have he : "(" :: us.map Token.text ++ [")"] = e.spelt ++ [] := by
      rw [List.append_nil]
      exact words_text hnamed hw ho hs hc
    exact (hs.printable hr he).1
  · intro hp
    have hform : ∀ i ∈ [Instruction.push 1 (.effect e)], i.Formed Parameter.Named := by
      simp only [List.mem_singleton, forall_eq]
      exact ⟨rfl, hnamed⟩
    have hpar : ∀ p ∈ Code.parameters [.push 1 (.effect e)], p.Printable := by
      simpa [Code.parameters, Instruction.parametersList, Instruction.parameters,
        Value.parameters] using hp
    obtain ⟨again, hagain, herase⟩ := Code.parse_formed hform hpar 1
    obtain ⟨l', rfl⟩ := Code.eq_of_eraseLines herase
    rw [parse_iff_code]
    refine ⟨l', ?_⟩
    simpa [Instruction.piecesList, Instruction.pieces, Value.pieces, Effect.text] using hagain

theorem parse_text_nested :
    let e : Effect := .mk [.nested "body" (.mk [.plain "x", .plain "y"] []), .plain "\"n m\""]
      [.plain "a"]
    Effect.parse "( body: ( x y ) \"n m\" -- a: )" = .ok e ∧
    Effect.parse "( body: ( x y -- ) \"n m\" -- a )" = .ok e := by
  intro e
  have h : Effect.parse "( body: ( x y ) \"n m\" -- a: )" = .ok e :=
    Effect.parse_ok_iff_run.mpr ⟨_, _, rfl, rfl, rfl⟩
  exact ⟨h, (parse_text_iff h).mpr (by decide)⟩

/-- A name that ends in a colon loses it. -/
theorem parse_text_colon :
    Effect.parse "( a:: -- b )" = .ok (.mk [.plain "a:"] [.plain "b"]) ∧
    Effect.text (.mk [.plain "a:"] [.plain "b"]) = "( a: -- b )" ∧
    Effect.parse "( a: -- b )" = .ok (.mk [.plain "a"] [.plain "b"]) :=
  ⟨Effect.parse_ok_iff_run.mpr ⟨_, _, rfl, rfl, rfl⟩, by decide +kernel,
    Effect.parse_ok_iff_run.mpr ⟨_, _, rfl, rfl, rfl⟩⟩

end Effect

end Concatenative
