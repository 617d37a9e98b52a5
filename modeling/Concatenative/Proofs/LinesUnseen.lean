import Concatenative.Proofs.Depth
import Concatenative.Proofs.LineNumbers
import Concatenative.Proofs.Underflow
set_option autoImplicit false

/-!
Line numbers are for reports only. They go with quotations onto the stack and into the dictionary,
and with failed calls onto the trail, but nothing that code can do depends on them or shows them.
-/
namespace Concatenative

section Text

variable (f : Nat → Nat)

mutual

theorem Value.pieces_mapLines : (v : Value) → (v.mapLines f).pieces = v.pieces
  | .array items => by simp [Value.mapLines, Value.pieces, Value.piecesList_mapLines items]
  | .quotation body => by simp [Value.mapLines, Value.pieces, Instruction.piecesList_mapLines body]
  | .integer _ => rfl
  | .boolean _ => rfl
  | .string _ => rfl
  | .symbol _ => rfl
  | .effect _ => rfl
  | .failure _ => rfl

theorem Value.piecesList_mapLines :
    (vs : List Value) → Value.piecesList (Value.mapLinesList f vs) = Value.piecesList vs
  | [] => rfl
  | v :: vs => by
    simp [Value.mapLinesList, Value.piecesList, Value.pieces_mapLines v,
      Value.piecesList_mapLines vs]

theorem Instruction.pieces_mapLines : (i : Instruction) → (i.mapLines f).pieces = i.pieces
  | .push _ v => by simp [Instruction.mapLines, Instruction.pieces, Value.pieces_mapLines v]
  | .call _ _ => rfl

theorem Instruction.piecesList_mapLines :
    (is : List Instruction) →
      Instruction.piecesList (Instruction.mapLinesList f is) = Instruction.piecesList is
  | [] => rfl
  | i :: is => by
    simp [Instruction.mapLinesList, Instruction.piecesList, Instruction.pieces_mapLines i,
      Instruction.piecesList_mapLines is]

end

end Text

theorem Value.text_eraseLines (v : Value) : v.eraseLines.text = v.text := by
  rw [text, eraseLines, pieces_mapLines, text]

def Meaning.eraseLines : Meaning → Meaning
  | .primitive p => .primitive p
  | .compound body => .compound body.eraseLines

namespace Word

def eraseLines (w : Word) : Word := { w with meaning := w.meaning.eraseLines }

theorem text_eraseLines (w : Word) : w.eraseLines.text = w.text := by
  obtain ⟨name, effect, description, meaning⟩ := w
  cases meaning with
  | primitive p => rfl
  | compound body =>
    have hbody := Instruction.piecesList_mapLines (fun _ => 0) body
    rw [Instruction.mapLinesList_eq_map] at hbody
    simp only [text, pieces, eraseLines, Meaning.eraseLines, Code.eraseLines, Code.mapLines, hbody]

end Word

namespace Dictionary

def eraseLines (d : Dictionary) : Dictionary := ⟨d.entries.map fun e => (e.1, e.2.eraseLines)⟩

theorem get?_eraseLines (d : Dictionary) (name : String) :
    d.eraseLines.get? name = (d.get? name).map Word.eraseLines := by
  obtain ⟨entries⟩ := d
  induction entries with
  | nil => rfl
  | cons e es ih =>
    simp only [get?, eraseLines, List.map_cons, findEntry] at ih ⊢
    by_cases hn : name = e.1
    · simp [hn]
    · simpa [hn] using ih

theorem define_eraseLines (d : Dictionary) (w : Word) :
    (d.define w).eraseLines = d.eraseLines.define w.eraseLines := by
  obtain ⟨entries⟩ := d
  simp only [define, insert, eraseLines, Dictionary.mk.injEq]
  show _ = insertEntry w.name w.eraseLines _
  induction entries with
  | nil => rfl
  | cons e es ih =>
    simp only [insertEntry, List.map_cons]
    by_cases hn : w.name = e.1
    · simp [hn]
    · by_cases hl : utf8 w.name < utf8 e.1
      · simp [hn, hl]
      · simp [hn, hl, ih]

theorem text_eraseLines (d : Dictionary) : d.eraseLines.text = d.text := by
  have hwidth : d.eraseLines.width = d.width := by
    simp [width, names, eraseLines, Function.comp_def]
  have hrow : ∀ name w, row d.width name w.eraseLines = row d.width name w := fun _ _ => rfl
  rw [text, text, hwidth]
  simp [eraseLines, Function.comp_def, hrow]

end Dictionary

def FailedCall.eraseLine (c : FailedCall) : FailedCall := { c with line := 0 }

namespace Session

/-- The session with every line number on its stack, in its words and on its trail set to zero. -/
def eraseLines (s : Session) : Session :=
  { s with
    stack := s.stack.map Value.eraseLines
    dictionary := s.dictionary.eraseLines
    trail := s.trail.map FailedCall.eraseLine }

theorem stackText_eraseLines (s : Session) : s.eraseLines.stackText = s.stackText := by
  have hstack := Value.piecesList_mapLines (fun _ => 0) s.stack.reverse
  rw [Value.mapLinesList_eq_map, List.map_reverse] at hstack
  exact congrArg (fun ps => " ".intercalate ("[" :: ps ++ ["]"])) hstack

/-- Sessions that are equal but for line numbers. -/
structure Alike (s s' : Session) : Prop where
  searchPaths : s.searchPaths = s'.searchPaths
  statementLimit : s.statementLimit = s'.statementLimit
  files : s.files = s'.files
  stack : s.stack.map Value.eraseLines = s'.stack.map Value.eraseLines
  dictionary : s.dictionary.eraseLines = s'.dictionary.eraseLines
  trail : s.trail.map FailedCall.eraseLine = s'.trail.map FailedCall.eraseLine
  output : s.output = s'.output

theorem alike_iff {s s' : Session} : s.Alike s' ↔ s.eraseLines = s'.eraseLines := by
  constructor
  · intro h
    simp only [eraseLines, mk.injEq]
    exact ⟨h.searchPaths, h.statementLimit, h.files, h.stack, h.dictionary, h.trail, h.output⟩
  · intro h
    simp only [eraseLines, mk.injEq] at h
    obtain ⟨hp, hl, hf, hs, hd, ht, ho⟩ := h
    exact ⟨hp, hl, hf, hs, hd, ht, ho⟩

theorem Alike.stack_cases {s s' : Session} (h : s.Alike s') :
    (s.stack = [] ∧ s'.stack = []) ∨
    ∃ v w vs ws, s.stack = v :: vs ∧ s'.stack = w :: ws ∧ v.eraseLines = w.eraseLines ∧
      vs.map Value.eraseLines = ws.map Value.eraseLines := by
  have hs := h.stack
  cases hv : s.stack with
  | nil =>
    rw [hv] at hs
    exact .inl ⟨rfl, List.map_eq_nil_iff.mp hs.symm⟩
  | cons v vs =>
    cases hw : s'.stack with
    | nil =>
      rw [hv, hw] at hs
      cases hs
    | cons w ws =>
      rw [hv, hw, List.map_cons, List.map_cons, List.cons.injEq] at hs
      exact .inr ⟨v, w, vs, ws, rfl, rfl, hs.1, hs.2⟩

theorem Alike.get?_dictionary {s s' : Session} (h : s.Alike s') (name : String) :
    (s.dictionary.get? name).map Word.eraseLines =
      (s'.dictionary.get? name).map Word.eraseLines := by
  rw [← Dictionary.get?_eraseLines, ← Dictionary.get?_eraseLines, h.dictionary]

end Session

namespace Result

def eraseLines {α : Type} : Result α → Result α
  | .value a s => .value a s.eraseLines
  | .failure e s => .failure e s.eraseLines
  | .paused why => .paused why

inductive Alike {α : Type} (Q : α → α → Prop) : Result α → Result α → Prop where
  | value {a b : α} {s s' : Session} : Q a b → s.Alike s' → Alike Q (.value a s) (.value b s')
  | failure (e : Error) {s s' : Session} : s.Alike s' → Alike Q (.failure e s) (.failure e s')
  | paused (why : Pause) : Alike Q (.paused why) (.paused why)

theorem Alike.eraseLines {r r' : Result Unit} (h : r.Alike (fun _ _ => True) r') :
    r.eraseLines = r'.eraseLines := by
  cases h with
  | value _ hs => exact congrArg (Result.value ()) (Session.alike_iff.mp hs)
  | failure e hs => exact congrArg (Result.failure e) (Session.alike_iff.mp hs)
  | paused why => rfl

theorem eq_value_of_eraseLines {α : Type} {r : Result α} {a : α} {s : Session}
    (h : r.eraseLines = (Result.value a s).eraseLines) :
    ∃ t, r = .value a t ∧ t.eraseLines = s.eraseLines := by
  cases r with
  | value b t =>
    injection h with hb ht
    exact ⟨t, by rw [hb], ht⟩
  | failure e t => cases h
  | paused why => cases h

end Result

def Action.Alike {α : Type} (Q : α → α → Prop) (x y : Action α) : Prop :=
  ∀ s s', s.Alike s' → (x s).Alike Q (y s')

namespace Action.Alike

variable {α β : Type} {Q : α → α → Prop} {P : β → β → Prop} {x y : Action α}

theorem bind {f g : α → Action β} (hx : x.Alike Q y) (hf : ∀ a b, Q a b → (f a).Alike P (g b)) :
    (x >>= f).Alike P (y >>= g) := by
  intro s s' h
  have hr := hx s s' h
  simp only [bind_apply]
  generalize x s = r at hr ⊢
  generalize y s' = r' at hr ⊢
  cases hr with
  | value hab hs => exact hf _ _ hab _ _ hs
  | failure e hs => exact .failure e hs
  | paused why => exact .paused why

theorem traced (hx : x.Alike Q y) (word : String) (line line' : Nat) :
    (x.traced word line).Alike Q (y.traced word line') := by
  intro s s' h
  have hr := hx s s' h
  unfold Action.traced
  generalize x s = r at hr ⊢
  generalize y s' = r' at hr ⊢
  cases hr with
  | value hab hs => exact .value hab hs
  | failure e hs =>
    refine .failure e { hs with trail := ?_ }
    simp only [List.map_append, hs.trail]
    rfl
  | paused why => exact .paused why

theorem attempt {x y : Action Unit} {handler handler' : Error → Action Unit}
    (hx : x.Alike (fun _ _ => True) y)
    (hh : ∀ e, (handler e).Alike (fun _ _ => True) (handler' e)) :
    (x.attempt handler).Alike (fun _ _ => True) (y.attempt handler') := by
  intro s s' h
  have hr := hx s s' h
  have hlength : s.trail.length = s'.trail.length := by
    simpa using congrArg List.length h.trail
  show Result.Alike _ (x.rescue (fun e => truncateTrail s.trail.length >>= fun _ => handler e) s)
    (y.rescue (fun e => truncateTrail s'.trail.length >>= fun _ => handler' e) s')
  unfold rescue
  rw [hlength]
  generalize x s = r at hr ⊢
  generalize y s' = r' at hr ⊢
  cases hr with
  | value hab hs => exact .value hab hs
  | failure e hs =>
    refine hh e _ _ { hs with trail := ?_ }
    simp only [List.map_take, hs.trail]
  | paused why => exact .paused why

theorem pop : Action.pop.Alike (fun v w => v.eraseLines = w.eraseLines) Action.pop := by
  intro s s' h
  unfold Action.pop
  rcases h.stack_cases with ⟨hs, hs'⟩ | ⟨v, w, vs, ws, hs, hs', hv, hrest⟩
  · rw [hs, hs']
    exact .failure _ h
  · rw [hs, hs']
    exact .value hv { h with stack := hrest }

theorem peek : Action.peek.Alike (fun v w => v.eraseLines = w.eraseLines) Action.peek := by
  intro s s' h
  unfold Action.peek
  rcases h.stack_cases with ⟨hs, hs'⟩ | ⟨v, w, vs, ws, hs, hs', hv, hrest⟩
  · rw [hs, hs']
    exact .failure _ h
  · rw [hs, hs']
    exact .value hv h

theorem push {v w : Value} (hv : v.eraseLines = w.eraseLines) :
    (Action.push v).Alike (fun _ _ => True) (Action.push w) := by
  intro s s' h
  refine .value trivial { h with stack := ?_ }
  simp only [List.map_cons, hv, h.stack]

theorem popEffect : Primitive.popEffect?.Alike Eq Primitive.popEffect? := by
  intro s s' h
  unfold Primitive.popEffect?
  rcases h.stack_cases with ⟨hs, hs'⟩ | ⟨v, w, vs, ws, hs, hs', hv, hrest⟩
  · rw [hs, hs']
    exact .value rfl h
  · rw [hs, hs']
    cases v with
    | effect e =>
      cases w with
      | effect e' =>
        cases hv
        exact .value rfl { h with stack := hrest }
      | _ => cases hv
    | _ =>
      cases w with
      | effect e' => cases hv
      | _ => exact .value rfl h

theorem lookup {Q : Word → Word → Prop} (hq : ∀ {w w'}, w.eraseLines = w'.eraseLines → Q w w')
    (name : String) : (Action.lookup name).Alike Q (Action.lookup name) := by
  intro s s' h
  have hd := h.get?_dictionary name
  unfold Action.lookup
  cases hw : s.dictionary.get? name with
  | none =>
    cases hw' : s'.dictionary.get? name with
    | none => exact .failure _ h
    | some w' => simp [hw, hw'] at hd
  | some w =>
    cases hw' : s'.dictionary.get? name with
    | none => simp [hw, hw'] at hd
    | some w' =>
      rw [hw, hw'] at hd
      exact .value (hq (Option.some.inj hd)) h

theorem print (text : String) :
    (Action.print text).Alike (fun _ _ => True) (Action.print text) := by
  intro s s' h
  simp only [Action.print, ← h.output]
  split
  · exact .value trivial { h with output := rfl }
  · exact .failure _ { h with output := rfl }

theorem firstFile (paths : List String) :
    (Action.firstFile paths).Alike Eq (Action.firstFile paths) := by
  induction paths with
  | nil => exact fun s s' h => .failure _ h
  | cons path paths ih =>
    intro s s' h
    unfold Action.firstFile
    rw [← h.files]
    rcases s.files path with _ | why | content
    · exact .paused _
    · cases why with
      | locked => exact .value rfl h
      | _ => exact ih s s' h
    · exact .value rfl h

theorem findFile (path : String) : (Action.findFile path).Alike Eq (Action.findFile path) := by
  intro s s' h
  show Result.Alike Eq (Action.firstFile (Path.candidates s.searchPaths path) s)
    (Action.firstFile (Path.candidates s'.searchPaths path) s')
  rw [h.searchPaths]
  exact firstFile _ s s' h

end Action.Alike

namespace LinesUnseen

def simulation : Simulation where
  value v w := v.eraseLines = w.eraseLines
  code c c' := c.eraseLines = c'.eraseLines
  line _ _ := True
  name _ := True
  primitive _ := True
  holds Q x y := x.Alike Q y

theorem alike {v w : Value} (h : v.eraseLines = w.eraseLines) : simulation.Alike v w := by
  cases v with
  | integer n =>
    cases w <;> cases h
    exact .integer n
  | boolean b =>
    cases w <;> cases h
    exact .boolean b
  | string s =>
    cases w <;> cases h
    exact .string s
  | symbol name =>
    cases w <;> cases h
    exact .symbol trivial
  | array items =>
    cases w with
    | array items' => exact .array items items'
    | _ => cases h
  | quotation body =>
    cases w with
    | quotation body' =>
      injection h with hb
      rw [Instruction.mapLinesList_eq_map, Instruction.mapLinesList_eq_map] at hb
      exact .quotation hb
    | _ => cases h
  | effect e =>
    cases w <;> cases h
    exact .effect e
  | failure message =>
    cases w <;> cases h
    exact .failure message

theorem basic : simulation.Basic where
  alike := alike
  yield hab _ _ h := .value hab h
  bind hx hf := hx.bind hf
  fail _ _ _ h := .failure _ h
  pop := .pop

theorem paired {code code' : Code} (h : code.eraseLines = code'.eraseLines) :
    simulation.Paired code code' := by
  cases code with
  | nil =>
    obtain rfl : code' = [] := List.map_eq_nil_iff.mp h.symm
    exact .nil
  | cons i rest =>
    cases code' with
    | nil => cases h
    | cons i' rest' =>
      obtain ⟨hi, hr⟩ := List.cons.inj h
      cases i with
      | push l v =>
        cases i' with
        | push l' w =>
          injection hi with _ hv
          exact .push hv hr
        | call l' name' => cases hi
      | call l name =>
        cases i' with
        | push l' w => cases hi
        | call l' name' =>
          injection hi with _ hn
          rw [hn]
          exact .call trivial trivial hr

theorem means {w w' : Word} (h : w.eraseLines = w'.eraseLines) :
    simulation.Means w.meaning w'.meaning := by
  have hm : w.meaning.eraseLines = w'.meaning.eraseLines := congrArg Word.meaning h
  generalize w.meaning = m at hm
  generalize w'.meaning = m' at hm
  cases m with
  | primitive p =>
    cases m' with
    | primitive q =>
      cases hm
      exact .primitive trivial
    | compound body' => cases hm
  | compound body =>
    cases m' with
    | primitive q => cases hm
    | compound body' => exact .compound (Meaning.compound.inj hm)

theorem bindBody {body body' : Code} (hb : body.eraseLines = body'.eraseLines) :
    simulation.does (Action.bindBody body) (Action.bindBody body') := by
  refine basic.bind Action.Alike.popEffect ?_
  rintro effect _ rfl
  refine basic.bind basic.popSymbol ?_
  rintro name _ ⟨rfl, -⟩ s s' h
  refine .value trivial { h with dictionary := ?_ }
  have hw : (Word.compound name effect body).eraseLines =
      (Word.compound name effect body').eraseLines := by
    simp only [Word.compound, Word.eraseLines, Meaning.eraseLines, hb]
  rw [Dictionary.define_eraseLines, Dictionary.define_eraseLines, h.dictionary, hw]

theorem lawful : simulation.Lawful where
  toBasic := basic
  integer _ := rfl
  boolean _ := rfl
  failure _ := rfl
  text {v w} h := by rw [← v.text_eraseLines, h, w.text_eraseLines]
  paired := paired
  pause why _ _ _ := .paused why
  traced word _ _ _ hx := hx.traced word _ _
  peek := .peek
  push hv := .push hv
  bindBody _ := bindBody
  see _ := .lookup (fun {w w'} h => by rw [← w.text_eraseLines, h, w'.text_eraseLines]) _
  lookup _ := .lookup means _
  print := .print
  clear _ _ _ h := .value trivial { h with stack := rfl }
  depth _ s s' h := by
    have hlength : s.stack.length = s'.stack.length := by
      simpa using congrArg List.length h.stack
    show Result.Alike _ (Action.push (.integer (Int64.ofNat s.stack.length)) s)
      (Action.push (.integer (Int64.ofNat s'.stack.length)) s')
    rw [hlength]
    exact Action.Alike.push rfl s s' h
  listWords _ s s' h := by
    have htext : s.dictionary.text = s'.dictionary.text := by
      rw [← s.dictionary.text_eraseLines, h.dictionary, s'.dictionary.text_eraseLines]
    show Result.Alike _ (Action.print (s.dictionary.text ++ "\n") s)
      (Action.print (s'.dictionary.text ++ "\n") s')
    rw [htext]
    exact Action.Alike.print _ s s' h
  showStack _ s s' h := by
    have htext : s.stackText = s'.stackText := by
      rw [← s.stackText_eraseLines, Session.alike_iff.mp h, s'.stackText_eraseLines]
    show Result.Alike _ (Action.print (s.stackText ++ "\n") s)
      (Action.print (s'.stackText ++ "\n") s')
    rw [htext]
    exact Action.Alike.print _ s s' h
  attempt _ _ _ _ _ hx hh := hx.attempt hh
  findFile _ path := .findFile path
  limit {f g} _ hf s s' h := by
    show Result.Alike _ (f s.statementLimit s) (g s'.statementLimit s')
    rw [h.statementLimit]
    exact hf _ s s' h
  parse := fun _ _ _ _ _ => rfl

end LinesUnseen

namespace Action

theorem exec_alike (depth : Nat) {code code' : Code} (hc : code.eraseLines = code'.eraseLines)
    {s s' : Session} (hs : s.Alike s') :
    (exec depth code s).eraseLines = (exec depth code' s').eraseLines := by
  have hsim : LinesUnseen.simulation.code code code' := hc
  exact (LinesUnseen.lawful.exec depth hsim s s' hs).eraseLines

/-- Two codes that differ in line numbers only, run in sessions that differ in these only, come to
the same end with the same output, and to sessions that again differ in line numbers only. With
calls nested equally deep, the one pauses just when the other does. -/
theorem exec_lines_unseen {code code' : Code} {s s' : Session}
    (hc : code.eraseLines = code'.eraseLines) (hs : s.eraseLines = s'.eraseLines) :
    (∀ depth, (exec depth code s).eraseLines = (exec depth code' s').eraseLines) ∧
    ∀ depth depth', (∀ why, exec depth code s ≠ .paused why) →
      (∀ why, exec depth' code' s' ≠ .paused why) →
      (exec depth code s).eraseLines = (exec depth' code' s').eraseLines := by
  have halike := Session.alike_iff.mpr hs
  refine ⟨fun depth => exec_alike depth hc halike, fun depth depth' hr hr' => ?_⟩
  -- Both runs are also runs with the greater of the two depths.
  rw [← exec_eq_of_le (Nat.le_max_left depth depth') hr,
    ← exec_eq_of_le (Nat.le_max_right depth depth') hr']
  exact exec_alike _ hc halike

/-- Quotations and a trail with lines of their own, all of which is printed or added to. -/
theorem exec_lines_unseen_shown :
    let code : Code := [.push 1 (.symbol "w"), .push 2 (.quotation [.call 3 "call", .call 4 "drop"]),
      .call 5 ";", .push 6 (.symbol "w"), .call 6 "see", .call 7 ".s", .call 8 "w"]
    let code' := code.mapLines (2 * ·)
    let session := fun line => { Session.start .standard (fun _ => none) .primitives .unlimited with
      stack := [.quotation [.call line "cr"]], trail := [⟨.wrongType, "+", line⟩] }
    (code.eraseLines = code'.eraseLines ∧ (session 1).eraseLines = (session 2).eraseLines) ∧
    ((∀ why, exec 3 code (session 1) ≠ .paused why) ∧
      ∀ why, exec 5 code' (session 2) ≠ .paused why) ∧
    (exec 3 code (session 1)).eraseLines = (exec 5 code' (session 2)).eraseLines := by
  intro code code' session
  have hc : code.eraseLines = code'.eraseLines := rfl
  have hs : (session 1).eraseLines = (session 2).eraseLines := rfl
  have he : (exec 3 code (session 1)).error? = some .stackUnderflow := by decide +kernel
  have he' : (exec 5 code' (session 2)).error? = some .stackUnderflow := by decide +kernel
  obtain ⟨t, hr⟩ := Result.eq_failure he
  obtain ⟨t', hr'⟩ := Result.eq_failure he'
  have hends : ∀ why, exec 3 code (session 1) ≠ .paused why := by simp [hr]
  have hends' : ∀ why, exec 5 code' (session 2) ≠ .paused why := by simp [hr']
  exact ⟨⟨hc, hs⟩, ⟨hends, hends'⟩, (exec_lines_unseen hc hs).2 3 5 hends hends'⟩

end Action

end Concatenative
