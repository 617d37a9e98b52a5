import Concatenative.Shell
set_option autoImplicit false

/-!
How deep calls may be nested matters only to a run that pauses. A run that comes to an end comes to
the same end with any greater depth, so that what a program does is the same for all depths that
suffice.
-/
namespace Concatenative

/-- The second action does what the first one does, unless the first one pauses. -/
def Action.Below {α : Type} (x y : Action α) : Prop :=
  ∀ s, (∃ why, x s = .paused why) ∨ x s = y s

namespace Action.Below

variable {α β : Type}

theorem refl (x : Action α) : x.Below x := fun _ => .inr rfl

theorem pause (why : Pause) (y : Action α) : (Action.pause why).Below y := fun _ => .inl ⟨why, rfl⟩

theorem bind {x y : Action α} {f g : α → Action β} (hx : x.Below y)
    (hf : ∀ a, (f a).Below (g a)) : (x >>= f).Below (y >>= g) := by
  intro s
  simp only [bind_apply]
  rcases hx s with ⟨why, hp⟩ | he
  · exact .inl ⟨why, by rw [hp]⟩
  · rw [← he]
    cases x s with
    | value a s' => exact hf a s'
    | failure e s' => exact .inr rfl
    | paused why => exact .inl ⟨why, rfl⟩

theorem rescue {x y : Action α} {handler handler' : Error → Action α} (hx : x.Below y)
    (hh : ∀ e, (handler e).Below (handler' e)) :
    (x.rescue handler).Below (y.rescue handler') := by
  intro s
  unfold Action.rescue
  rcases hx s with ⟨why, hp⟩ | he
  · exact .inl ⟨why, by rw [hp]⟩
  · rw [← he]
    cases x s with
    | value a s' => exact .inr rfl
    | failure e s' => exact hh e s'
    | paused why => exact .inl ⟨why, rfl⟩

theorem traced {x y : Action α} (hx : x.Below y) (word : String) (line : Nat) :
    (x.traced word line).Below (y.traced word line) := by
  intro s
  unfold Action.traced
  rcases hx s with ⟨why, hp⟩ | he
  · exact .inl ⟨why, by rw [hp]⟩
  · exact .inr (by rw [he])

theorem ite {p : Prop} [Decidable p] {x x' y y' : Action α} (hx : x.Below x') (hy : y.Below y') :
    (if p then x else y).Below (if p then x' else y') := by
  split
  · exact hx
  · exact hy

end Action.Below

open Concatenative.Action

theorem Code.run_below {call call' : String → Action Unit}
    (h : ∀ name, (call name).Below (call' name)) (code : Code) :
    (code.run call).Below (code.run call') := by
  induction code with
  | nil => exact .refl _
  | cons i rest ih =>
    cases i with
    | push line v => exact .bind (.refl _) fun _ => ih
    | call line name => exact .bind ((h name).traced name line) fun _ => ih

namespace Script

theorem overLines_below {take take' : Statement → Option String → Action (Option Statement)}
    {close close' : Statement → Action Unit} (ht : ∀ s line, (take s line).Below (take' s line))
    (hc : ∀ s, (close s).Below (close' s)) (s : Statement) (lines : List (Option String)) :
    (overLines take close s lines).Below (overLines take' close' s lines) := by
  induction lines generalizing s with
  | nil => exact hc s
  | cons line rest ih =>
    refine .bind (ht s line) fun next => ?_
    cases next with
    | none => exact .refl _
    | some s' => exact ih s'

variable {exec exec' : Code → Action Unit}

theorem take_below (h : ∀ code, (exec code).Below (exec' code)) (s : Statement)
    (line : Option String) : (take exec s line).Below (take exec' s line) := by
  cases line with
  | none => exact .refl _
  | some line =>
    refine .ite (.refl _) ?_
    rcases s.feed line with ⟨e | _ | code, s'⟩
    · exact .refl _
    · exact .refl _
    · exact .bind (h code) fun _ => .refl _

theorem close_below (h : ∀ code, (exec code).Below (exec' code)) (s : Statement) :
    (close exec s).Below (close exec' s) := .bind (.refl _) h

theorem run_below (h : ∀ code, (exec code).Below (exec' code)) (lines : List (Option String)) :
    (run exec lines).Below (run exec' lines) :=
  .bind (.refl _) fun _ => overLines_below (take_below h) (close_below h) _ lines

end Script

theorem Primitive.run_below {exec exec' : Code → Action Unit}
    (h : ∀ code, (exec code).Below (exec' code)) (p : Primitive) :
    (p.run exec).Below (p.run exec') := by
  cases p with
  | call => exact .bind (.refl _) h
  | choose => exact .bind (.refl _) fun _ => .bind (.refl _) fun _ => .bind (.refl _) fun _ => h _
  | when => exact .bind (.refl _) fun code => .bind (.refl _) fun _ => .ite (h code) (.refl _)
  | «unless» => exact .bind (.refl _) fun code => .bind (.refl _) fun _ => .ite (.refl _) (h code)
  | recover =>
    refine .bind (.refl _) fun handler => .bind (.refl _) fun attempt => .bind (.refl _) fun s => ?_
    exact .rescue (h attempt) fun e =>
      .bind (.refl _) fun _ => .bind (.refl _) fun _ => h handler
  | ignoreErrors =>
    exact .bind (.refl _) fun attempt => .bind (.refl _) fun s => .rescue (h attempt) fun _ => .refl _
  | load =>
    exact .bind (.refl _) fun _ => .bind (.refl _) fun _ => .bind (.refl _) fun _ =>
      Script.run_below h _
  | _ => exact .refl _

namespace Action

theorem call_below {depth depth' : Nat} (h : depth ≤ depth') (name : String) :
    (call depth name).Below (call depth' name) := by
  induction depth generalizing depth' name with
  | zero => exact .pause _ _
  | succ depth ih =>
    obtain ⟨depth', rfl⟩ : ∃ n, depth' = n + 1 := ⟨depth' - 1, by omega⟩
    have hcall := fun name => ih (Nat.le_of_succ_le_succ h) name
    refine .bind (.refl _) fun word => ?_
    unfold Meaning.run
    cases word.meaning with
    | primitive p => exact p.run_below (Code.run_below hcall)
    | compound body => exact Code.run_below hcall body

theorem exec_below {depth depth' : Nat} (h : depth ≤ depth') (code : Code) :
    (exec depth code).Below (exec depth' code) := Code.run_below (call_below h) code

theorem exec_eq_of_le {depth depth' : Nat} (h : depth ≤ depth') {code : Code} {s : Session}
    (hr : ∀ why, exec depth code s ≠ .paused why) : exec depth' code s = exec depth code s := by
  rcases exec_below h code s with ⟨why, hp⟩ | he
  · exact absurd hp (hr why)
  · exact he.symm

end Action

namespace Shell

variable {exec exec' : Code → Action Unit}

theorem close_below (h : ∀ code, (exec code).Below (exec' code)) (s : Statement) :
    (close exec s).Below (close exec' s) :=
  .rescue (Script.close_below h s) fun _ => .refl _

theorem answer_below (h : ∀ code, (exec code).Below (exec' code)) (s : Statement) (line : String) :
    (answer exec s line).Below (answer exec' s line) := by
  unfold answer
  rcases s.feed line with ⟨e | _ | code, s'⟩
  · exact .refl _
  · exact .refl _
  · exact .bind (.rescue (h code) fun _ => .refl _) fun _ => .refl _

theorem take_below (h : ∀ code, (exec code).Below (exec' code)) (quiet : Bool) (s : Statement)
    (line : Option String) : (take quiet exec s line).Below (take quiet exec' s line) := by
  cases line with
  | none => exact .bind (.refl _) fun _ => .bind (close_below h s) fun _ => .refl _
  | some line => exact .ite (.refl _) (.bind (answer_below h s line) fun _ => .refl _)

theorem converse_below (h : ∀ code, (exec code).Below (exec' code)) (quiet : Bool)
    (lines : List (Option String)) : (converse quiet exec lines).Below (converse quiet exec' lines) :=
  .bind (.refl _) fun s => Script.overLines_below (take_below h quiet) (close_below h) s lines

theorem script_below (h : ∀ code, (exec code).Below (exec' code)) (path : String) :
    (script exec path).Below (script exec' path) := .bind (.refl _) fun _ => Script.run_below h _

/-- The program, started with these settings, files and input, comes to this end. -/
def Ends (settings : Settings) (files : Files) (input : ByteArray) (exit : Exit) : Prop :=
  ∃ depth, run depth settings files input = .ok exit

theorem ends_of_toOption (depth : Nat) {settings : Settings} {files : Files} {input : ByteArray}
    {exit : Exit} (h : (run depth settings files input).toOption = some exit) :
    Ends settings files input exit := by
  refine ⟨depth, ?_⟩
  cases hr : run depth settings files input with
  | ok exit' =>
    rw [hr] at h
    cases h
    rfl
  | error why =>
    rw [hr] at h
    cases h

theorem run_mono {depth depth' : Nat} (h : depth ≤ depth') {settings : Settings} {files : Files}
    {input : ByteArray} {exit : Exit} (hr : run depth settings files input = .ok exit) :
    run depth' settings files input = .ok exit := by
  unfold run at hr ⊢
  cases hs : settings.script with
  | some path =>
    simp only [hs] at hr ⊢
    rcases script_below (exec_below h) path (session settings files) with ⟨why, hp⟩ | he
    · rw [hp] at hr
      cases hr
    · rwa [← he]
  | none =>
    simp only [hs] at hr ⊢
    rcases converse_below (exec_below h) settings.quiet (Text.Lines.ofBytes input)
      (session settings files) with ⟨why, hp⟩ | he
    · rw [hp] at hr
      cases hr
    · rwa [← he]

theorem Ends.unique {settings : Settings} {files : Files} {input : ByteArray} {exit exit' : Exit}
    (h : Ends settings files input exit) (h' : Ends settings files input exit') : exit = exit' := by
  obtain ⟨depth, h⟩ := h
  obtain ⟨depth', h'⟩ := h'
  have hm := run_mono (Nat.le_max_left depth depth') h
  rw [run_mono (Nat.le_max_right depth depth') h'] at hm
  exact (Except.ok.inj hm).symm

end Shell

end Concatenative
