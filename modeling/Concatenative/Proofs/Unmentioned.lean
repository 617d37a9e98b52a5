import Concatenative.Proofs.Depth
import Concatenative.Proofs.Underflow
set_option autoImplicit false

/-!
Words that nobody mentions. What a name stands for, and whether it stands for anything, matters only
to a run that comes across the name: in its code, on its stack, or in the body of another word.
-/
namespace Concatenative

mutual

def Value.names : Value → List String
  | .integer _ => []
  | .boolean _ => []
  | .string _ => []
  | .symbol name => [name]
  | .array items => Value.namesList items
  | .quotation body => Instruction.namesList body
  | .effect _ => []
  | .failure _ => []

def Value.namesList : List Value → List String
  | [] => []
  | v :: vs => v.names ++ Value.namesList vs

def Instruction.names : Instruction → List String
  | .push _ v => v.names
  | .call _ name => [name]

def Instruction.namesList : List Instruction → List String
  | [] => []
  | i :: is => i.names ++ Instruction.namesList is

end

def Code.names (code : Code) : List String := Instruction.namesList code

theorem Code.not_mem_names_cons {n : String} {i : Instruction} {rest : Code} :
    n ∉ Code.names (i :: rest) ↔ n ∉ i.names ∧ n ∉ Code.names rest := by
  simp [Code.names, Instruction.namesList]

/-- The meaning does not mention the name, and is not to list the words or to load a file, which
might. -/
def Meaning.Avoids (n : String) : Meaning → Prop
  | .primitive p => p ≠ .listWords ∧ p ≠ .load
  | .compound body => n ∉ body.names

instance (n : String) (m : Meaning) : Decidable (m.Avoids n) :=
  match m with
  | .primitive _ => inferInstanceAs (Decidable (_ ∧ _))
  | .compound _ => inferInstanceAs (Decidable (_ ∉ _))

namespace Session

/-- Sessions that differ at most in what the name stands for, and that come across it nowhere. -/
structure Apart (n : String) (s s' : Session) : Prop where
  rest : s' = { s with dictionary := s'.dictionary }
  agree : ∀ name, name ≠ n → s.dictionary.get? name = s'.dictionary.get? name
  words : ∀ name w, name ≠ n → s.dictionary.get? name = some w → w.meaning.Avoids n
  stack : ∀ v ∈ s.stack, n ∉ v.names

/-- The sessions that two runs from `s` and `s'` lead to: the name stands in each for what it stood
for there. -/
structure StayApart (n : String) (s s' t t' : Session) : Prop extends t.Apart n t' where
  own : t.dictionary.get? n = s.dictionary.get? n
  own' : t'.dictionary.get? n = s'.dictionary.get? n

variable {n : String} {s s' t t' u u' : Session}

theorem Apart.stay (h : s.Apart n s') : StayApart n s s' s s' := ⟨h, rfl, rfl⟩

theorem Apart.stack_eq (h : s.Apart n s') : s'.stack = s.stack := by rw [h.rest]

theorem Apart.trail_eq (h : s.Apart n s') : s'.trail = s.trail := by rw [h.rest]

theorem Apart.output_eq (h : s.Apart n s') : s'.output = s.output := by rw [h.rest]

namespace StayApart

theorem trans (h : StayApart n s s' t t') (h' : StayApart n t t' u u') :
    StayApart n s s' u u' := ⟨h'.toApart, h'.own.trans h.own, h'.own'.trans h.own'⟩

theorem mapStack (h : StayApart n s s' t t') (f : List Value → List Value)
    (hs : ∀ v ∈ f t.stack, n ∉ v.names) :
    StayApart n s s' { t with stack := f t.stack } { t' with stack := f t'.stack } :=
  ⟨⟨by rw [h.rest], h.agree, h.words, hs⟩, h.own, h.own'⟩

theorem mapTrail (h : StayApart n s s' t t') (f : Trail → Trail) :
    StayApart n s s' { t with trail := f t.trail } { t' with trail := f t'.trail } :=
  ⟨⟨by rw [h.rest], h.agree, h.words, h.stack⟩, h.own, h.own'⟩

theorem setOutput (h : StayApart n s s' t t') (output : Sink) :
    StayApart n s s' { t with output } { t' with output } :=
  ⟨⟨by rw [h.rest], h.agree, h.words, h.stack⟩, h.own, h.own'⟩

theorem define (h : StayApart n s s' t t') {name : String} (hn : name ≠ n) (effect : Option Effect)
    {body : Code} (hb : n ∉ body.names) :
    StayApart n s s'
      { t with dictionary := t.dictionary.define (.compound name effect body) }
      { t' with dictionary := t'.dictionary.define (.compound name effect body) } := by
  have hword : (Word.compound name effect body).name = name := rfl
  refine ⟨⟨by rw [h.rest], ?_, ?_, h.stack⟩, ?_, ?_⟩
  · intro other ho
    simp only [Dictionary.define, Dictionary.get?_insert, h.agree other ho]
  · intro other w ho hw
    simp only [Dictionary.define, Dictionary.get?_insert] at hw
    split at hw
    · cases hw
      exact hb
    · exact h.words other w ho hw
  · simp only [Dictionary.define, Dictionary.get?_insert, hword, if_neg hn.symm, h.own]
  · simp only [Dictionary.define, Dictionary.get?_insert, hword, if_neg hn.symm, h.own']

end StayApart

end Session

inductive Result.Apart {α : Type} (n : String) (s s' : Session) (Q : α → α → Prop) :
    Result α → Result α → Prop where
  | value {a b : α} {t t' : Session} : Q a b → Session.StayApart n s s' t t' →
    Apart n s s' Q (.value a t) (.value b t')
  | failure (e : Error) {t t' : Session} : Session.StayApart n s s' t t' →
    Apart n s s' Q (.failure e t) (.failure e t')
  | paused (why : Pause) : Apart n s s' Q (.paused why) (.paused why)

theorem Result.Apart.after {α : Type} {n : String} {s s' t t' : Session} {Q : α → α → Prop}
    {r r' : Result α} (hr : r.Apart n t t' Q r') (h : Session.StayApart n s s' t t') :
    r.Apart n s s' Q r' := by
  cases hr with
  | value hab hu => exact .value hab (h.trans hu)
  | failure e hu => exact .failure e (h.trans hu)
  | paused why => exact .paused why

def Action.Apart {α : Type} (n : String) (Q : α → α → Prop) (x y : Action α) : Prop :=
  ∀ s s', s.Apart n s' → (x s).Apart n s s' Q (y s')

namespace Action.Apart

variable {n : String} {α β : Type} {Q : α → α → Prop} {P : β → β → Prop} {x y : Action α}

theorem bind {f g : α → Action β} (hx : x.Apart n Q y)
    (hf : ∀ a b, Q a b → (f a).Apart n P (g b)) : (x >>= f).Apart n P (y >>= g) := by
  intro s s' h
  have hr := hx s s' h
  simp only [bind_apply]
  generalize x s = r at hr ⊢
  generalize y s' = r' at hr ⊢
  cases hr with
  | value hab ht => exact (hf _ _ hab _ _ ht.toApart).after ht
  | failure e ht => exact .failure e ht
  | paused why => exact .paused why

theorem traced (hx : x.Apart n Q y) (word : String) (line : Nat) :
    (x.traced word line).Apart n Q (y.traced word line) := by
  intro s s' h
  have hr := hx s s' h
  unfold Action.traced
  generalize x s = r at hr ⊢
  generalize y s' = r' at hr ⊢
  cases hr with
  | value hab ht => exact .value hab ht
  | failure e ht => exact .failure e (ht.mapTrail (· ++ [⟨e, word, line⟩]))
  | paused why => exact .paused why

theorem attempt {x y : Action Unit} {handler handler' : Error → Action Unit}
    (hx : x.Apart n (fun _ _ => True) y)
    (hh : ∀ e, (handler e).Apart n (fun _ _ => True) (handler' e)) :
    (x.attempt handler).Apart n (fun _ _ => True) (y.attempt handler') := by
  intro s s' h
  have hr := hx s s' h
  show Result.Apart n s s' _
    (x.rescue (fun e => truncateTrail s.trail.length >>= fun _ => handler e) s)
    (y.rescue (fun e => truncateTrail s'.trail.length >>= fun _ => handler' e) s')
  unfold rescue
  rw [h.trail_eq]
  generalize x s = r at hr ⊢
  generalize y s' = r' at hr ⊢
  cases hr with
  | value hab ht => exact .value hab ht
  | failure e ht =>
    have hcut := ht.mapTrail (List.take s.trail.length)
    exact (hh e _ _ hcut.toApart).after hcut
  | paused why => exact .paused why

theorem pop : Action.pop.Apart n (fun v w => v = w ∧ n ∉ v.names) Action.pop := by
  intro s s' h
  unfold Action.pop
  rw [h.stack_eq]
  cases hs : s.stack with
  | nil => exact .failure _ h.stay
  | cons v rest =>
    obtain ⟨hv, hrest⟩ := List.forall_mem_cons.mp (hs ▸ h.stack)
    exact .value ⟨rfl, hv⟩ (h.stay.mapStack (fun _ => rest) hrest)

theorem peek : Action.peek.Apart n (fun v w => v = w ∧ n ∉ v.names) Action.peek := by
  intro s s' h
  unfold Action.peek
  rw [h.stack_eq]
  cases hs : s.stack with
  | nil => exact .failure _ h.stay
  | cons v rest => exact .value ⟨rfl, h.stack v (by simp [hs])⟩ h.stay

theorem push {v : Value} (hv : n ∉ v.names) :
    (Action.push v).Apart n (fun _ _ => True) (Action.push v) := by
  intro s s' h
  exact .value trivial (h.stay.mapStack (v :: ·) (List.forall_mem_cons.mpr ⟨hv, h.stack⟩))

theorem popEffect : Primitive.popEffect?.Apart n Eq Primitive.popEffect? := by
  intro s s' h
  unfold Primitive.popEffect?
  rw [h.stack_eq]
  split
  · next e rest hs =>
    exact .value rfl (h.stay.mapStack (fun _ => rest) fun v hv => h.stack v (by simp [hs, hv]))
  · exact .value rfl h.stay

theorem lookup {Q : Word → Word → Prop} {name : String} (hn : name ≠ n)
    (hq : ∀ w, w.meaning.Avoids n → Q w w) :
    (Action.lookup name).Apart n Q (Action.lookup name) := by
  intro s s' h
  unfold Action.lookup
  rw [← h.agree name hn]
  cases hw : s.dictionary.get? name with
  | none => exact .failure _ h.stay
  | some w => exact .value (hq w (h.words name w hn hw)) h.stay

theorem print (text : String) :
    (Action.print text).Apart n (fun _ _ => True) (Action.print text) := by
  intro s s' h
  simp only [Action.print, h.output_eq]
  split
  · exact .value trivial (h.stay.setOutput _)
  · exact .failure _ (h.stay.setOutput _)

end Action.Apart

namespace Unmentioned

def simulation (n : String) : Simulation where
  value v w := v = w ∧ n ∉ v.names
  code c c' := c = c' ∧ n ∉ c.names
  line := Eq
  name m := m ≠ n
  primitive p := p ≠ .listWords ∧ p ≠ .load
  holds Q x y := x.Apart n Q y

variable {n : String}

theorem basic : (simulation n).Basic where
  alike := by
    rintro v _ ⟨rfl, hv⟩
    refine .refl (fun name hs => ?_) fun body hq => ?_
    · subst hs
      exact fun he => hv (by simp [Value.names, he])
    · subst hq
      exact ⟨rfl, hv⟩
  yield hab _ _ h := .value hab h.stay
  bind hx hf := hx.bind hf
  fail _ _ _ h := .failure _ h.stay
  pop := .pop

theorem means {m : Meaning} (h : m.Avoids n) : (simulation n).Means m m := by
  cases m with
  | primitive p => exact .primitive h
  | compound body => exact .compound ⟨rfl, h⟩

theorem bindBody {body : Code} (hb : n ∉ body.names) :
    (simulation n).keeps (Action.bindBody body) := by
  refine basic.bind Action.Apart.popEffect ?_
  rintro effect _ rfl
  refine basic.bind basic.popSymbol ?_
  rintro name _ ⟨rfl, hn⟩ s s' h
  exact .value trivial (h.stay.define hn effect hb)

theorem lawful : (simulation n).Lawful where
  toBasic := basic
  integer _ := ⟨rfl, by simp [Value.names]⟩
  boolean _ := ⟨rfl, by simp [Value.names]⟩
  failure _ := ⟨rfl, by simp [Value.names]⟩
  text := fun ⟨hv, _⟩ => by rw [hv]
  paired := by
    rintro code _ ⟨rfl, hc⟩
    match code with
    | [] => exact .nil
    | .push line v :: rest =>
      obtain ⟨hv, hr⟩ := Code.not_mem_names_cons.mp hc
      exact .push ⟨rfl, hv⟩ ⟨rfl, hr⟩
    | .call line name :: rest =>
      obtain ⟨hn, hr⟩ := Code.not_mem_names_cons.mp hc
      exact .call rfl (fun he => hn (by simp [Instruction.names, he])) ⟨rfl, hr⟩
  pause why _ _ _ := .paused why
  traced := by
    rintro x y word l _ rfl hx
    exact hx.traced word l
  peek := .peek
  push := by
    rintro v _ ⟨rfl, hv⟩
    exact .push hv
  bindBody := by
    rintro - body _ ⟨rfl, hb⟩
    exact bindBody hb
  see hn := .lookup hn fun _ _ => rfl
  lookup hn := .lookup hn fun _ => means
  print := .print
  clear _ _ _ h := .value trivial (h.stay.mapStack (fun _ => []) (by simp))
  depth _ s s' h := by
    show Result.Apart n s s' _ (Action.push (.integer (Int64.ofNat s.stack.length)) s)
      (Action.push (.integer (Int64.ofNat s'.stack.length)) s')
    rw [h.stack_eq]
    exact Action.Apart.push (by simp [Value.names]) s s' h
  listWords hp := absurd rfl hp.1
  showStack _ s s' h := by
    have htext : s'.stackText = s.stackText := by rw [Session.stackText, h.stack_eq, Session.stackText]
    show Result.Apart n s s' _ (Action.print (s.stackText ++ "\n") s)
      (Action.print (s'.stackText ++ "\n") s')
    rw [htext]
    exact Action.Apart.print _ s s' h
  attempt _ _ _ _ _ hx hh := hx.attempt hh
  findFile hp := absurd rfl hp.2
  limit hp := absurd rfl hp.2
  parse hp := absurd rfl hp.2

end Unmentioned

namespace Action

/-- A word that neither the code nor the stack nor another word mentions may be anything, or nothing.
Runs come to the same end with the same output, stack and trail; each leaves the word as it was, and
all other words are the same in both. -/
theorem exec_unmentioned {n : String} {code : Code} {s s' : Session} (hs : s.Apart n s')
    (hc : n ∉ code.names) :
    (∀ depth, (exec depth code s).Apart n s s' (fun _ _ => True) (exec depth code s')) ∧
    ∀ depth depth', (∀ why, exec depth code s ≠ .paused why) →
      (∀ why, exec depth' code s' ≠ .paused why) →
      (exec depth code s).Apart n s s' (fun _ _ => True) (exec depth' code s') := by
  have hcode : (Unmentioned.simulation n).code code code := ⟨rfl, hc⟩
  refine ⟨fun depth => Unmentioned.lawful.exec depth hcode s s' hs, fun depth depth' hr hr' => ?_⟩
  rw [← exec_eq_of_le (Nat.le_max_left depth depth') hr,
    ← exec_eq_of_le (Nat.le_max_right depth depth') hr']
  exact Unmentioned.lawful.exec _ hcode s s' hs

/-- In the one session there is no such word, in the other it would never end. The runs define and
show a word that is not there in either. -/
theorem exec_unmentioned_undefined :
    let dictionary : Dictionary :=
      ⟨Dictionary.primitives.entries.filter fun e => e.2.meaning.Avoids "x"⟩
    let session := { Session.start .standard (fun _ => none) dictionary .unlimited with
      stack := [.symbol "y"] }
    let session' := { session with
      dictionary := dictionary.define (.compound "x" none [.call 1 "x"]) }
    let code : Code := [.push 1 (.quotation [.call 1 "dup", .call 2 "*"]), .call 3 ";",
      .push 4 (.symbol "y"), .call 4 "see", .push 5 (.integer 3), .call 5 "y", .call 5 "z"]
    (session.Apart "x" session' ∧ "x" ∉ code.names) ∧
    ((∀ why, exec 2 code session ≠ .paused why) ∧ ∀ why, exec 3 code session' ≠ .paused why) ∧
    (exec 2 code session).Apart "x" session session' (fun _ _ => True) (exec 3 code session') := by
  intro dictionary session session' code
  have hs : session.Apart "x" session' := by
    refine ⟨rfl, fun name hn => ?_, fun name w _ hw => ?_, by decide⟩
    · exact ((Dictionary.get?_insert _ _ _ _).trans (if_neg hn)).symm
    · simpa using (List.mem_filter.mp (Dictionary.mem_of_findEntry hw)).2
  have hc : "x" ∉ code.names := by decide
  have he : (exec 2 code session).error? = some .unknownWord := by decide +kernel
  have he' : (exec 3 code session').error? = some .unknownWord := by decide +kernel
  obtain ⟨t, hr⟩ := Result.eq_failure he
  obtain ⟨t', hr'⟩ := Result.eq_failure he'
  have hends : ∀ why, exec 2 code session ≠ .paused why := by simp [hr]
  have hends' : ∀ why, exec 3 code session' ≠ .paused why := by simp [hr']
  exact ⟨⟨hs, hc⟩, ⟨hends, hends'⟩, (exec_unmentioned hs hc).2 2 3 hends hends'⟩

end Action

end Concatenative
