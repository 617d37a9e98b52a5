import Concatenative.Evaluation
set_option autoImplicit false

/-!
How many values primitive words take and leave. Most of them always take the same number of values
and, if they succeed, leave the same number in their place. The effects that they are registered with
give these two numbers.
-/
namespace Concatenative

variable {α β : Type}

/-- The result that an action has in the session `s` if it takes `i` values from the stack and then
puts `o` values there. It may fail before it has put any, but runs out of values only if fewer than
`i` were there. Words and trail are left alone. -/
def Result.Takes (i o : Nat) (s : Session) : Result α → Prop
  | .value _ s' =>
    (i ≤ s.stack.length ∧ ∃ left, left.length = o ∧ s'.stack = left ++ s.stack.drop i) ∧
      s'.dictionary = s.dictionary ∧ s'.trail = s.trail
  | .failure e s' =>
    ((i ≤ s.stack.length → e ≠ .stackUnderflow) ∧ ∃ k ≤ i, s'.stack = s.stack.drop k) ∧
      s'.dictionary = s.dictionary ∧ s'.trail = s.trail
  | .paused _ => False

namespace Result.Takes

variable {i j o : Nat} {s s' : Session}

theorem of_value (a : α) (hstack : s'.stack = s.stack) (hdict : s'.dictionary = s.dictionary)
    (htrail : s'.trail = s.trail) : (Result.value a s').Takes 0 0 s :=
  ⟨⟨Nat.zero_le _, [], rfl, hstack⟩, hdict, htrail⟩

theorem of_failure {e : Error} (he : e ≠ .stackUnderflow) (o : Nat) (hstack : s'.stack = s.stack)
    (hdict : s'.dictionary = s.dictionary) (htrail : s'.trail = s.trail) :
    (Result.failure e s' : Result α).Takes 0 o s :=
  ⟨⟨fun _ => he, 0, Nat.le_refl 0, hstack⟩, hdict, htrail⟩

/-- What takes `j` values where `i` have just been taken takes `i + j` values from the whole. -/
theorem after {r : Result α} (h : r.Takes j o s') (hi : i ≤ s.stack.length)
    (hstack : s'.stack = s.stack.drop i) (hdict : s'.dictionary = s.dictionary)
    (htrail : s'.trail = s.trail) : r.Takes (i + j) o s := by
  have hlen : s'.stack.length = s.stack.length - i := by rw [hstack, List.length_drop]
  cases r with
  | value a t =>
    obtain ⟨⟨hj, left, hleft, ht⟩, hd, htr⟩ := h
    refine ⟨⟨by omega, left, hleft, ?_⟩, hd.trans hdict, htr.trans htrail⟩
    rw [ht, hstack, List.drop_drop]
  | failure e t =>
    obtain ⟨⟨he, k, hk, ht⟩, hd, htr⟩ := h
    refine ⟨⟨fun hl => he (by omega), i + k, by omega, ?_⟩, hd.trans hdict, htr.trans htrail⟩
    rw [ht, hstack, List.drop_drop]
  | paused why => exact h

end Result.Takes

namespace Action

def Takes (i o : Nat) (x : Action α) : Prop := ∀ s, (x s).Takes i o s

def Pushes (n : Nat) (x : Action Unit) : Prop :=
  ∀ s, ∃ vs, vs.length = n ∧ x s = .value () { s with stack := vs ++ s.stack }

theorem pushes_push (v : Value) : (push v).Pushes 1 := fun _ => ⟨[v], rfl, rfl⟩

theorem Pushes.append {m n : Nat} {x y : Action Unit} (hx : x.Pushes m) (hy : y.Pushes n) :
    (x >>= fun _ => y).Pushes (n + m) := by
  intro s
  obtain ⟨vs, hvs, hxs⟩ := hx s
  obtain ⟨ws, hws, hys⟩ := hy { s with stack := vs ++ s.stack }
  refine ⟨ws ++ vs, by rw [List.length_append, hvs, hws], ?_⟩
  rw [bind_apply, hxs, List.append_assoc]
  exact hys

namespace Takes

variable {i j n o : Nat} {x : Action α}

theorem bind {f : α → Action β} (hx : x.Takes i 0) (hf : ∀ a, (f a).Takes j o) :
    (x >>= f).Takes (i + j) o := by
  intro s
  have hs := hx s
  rw [bind_apply]
  cases hr : x s with
  | value a s' =>
    rw [hr] at hs
    obtain ⟨⟨hi, left, hleft, hstack⟩, hdict, htrail⟩ := hs
    rw [List.length_eq_zero_iff.mp hleft, List.nil_append] at hstack
    exact (hf a s').after hi hstack hdict htrail
  | failure e s' =>
    rw [hr] at hs
    obtain ⟨⟨he, k, hk, hstack⟩, hsame⟩ := hs
    exact ⟨⟨fun hl => he (by omega), k, by omega, hstack⟩, hsame⟩
  | paused why =>
    rw [hr] at hs
    exact hs

/-- Once values have been put on the stack nothing may fail any more, and pushing does not. -/
theorem pushes {f : α → Action Unit} (hx : x.Takes i o) (hf : ∀ a, (f a).Pushes n) :
    (x >>= f).Takes i (n + o) := by
  intro s
  have hs := hx s
  rw [bind_apply]
  cases hr : x s with
  | value a s' =>
    rw [hr] at hs
    obtain ⟨⟨hi, left, hleft, hstack⟩, hsame⟩ := hs
    obtain ⟨vs, hvs, hfs⟩ := hf a s'
    show (f a s').Takes i (n + o) s
    rw [hfs]
    refine ⟨⟨hi, vs ++ left, by rw [List.length_append, hvs, hleft], ?_⟩, hsame⟩
    rw [hstack, List.append_assoc]
  | failure e s' =>
    rw [hr] at hs
    exact hs
  | paused why =>
    rw [hr] at hs
    exact hs

theorem yield (a : α) : (pure a : Action α).Takes 0 0 := fun _ => .of_value a rfl rfl rfl

theorem fail {e : Error} (he : e ≠ .stackUnderflow) (o : Nat) :
    (Action.fail e : Action α).Takes 0 o := fun _ => .of_failure he o rfl rfl rfl

theorem get : Action.get.Takes 0 0 := fun s => .of_value s rfl rfl rfl

theorem push (v : Value) : (Action.push v).Takes 0 1 := fun _ =>
  ⟨⟨Nat.zero_le _, [v], rfl, rfl⟩, rfl, rfl⟩

theorem pop : Action.pop.Takes 1 0 := by
  intro s
  unfold Action.pop
  cases hs : s.stack with
  | nil => exact ⟨⟨fun hl => by simp [hs] at hl, 0, by omega, rfl⟩, rfl, rfl⟩
  | cons v rest => exact ⟨⟨by simp [hs], [], rfl, by simp [hs]⟩, rfl, rfl⟩

theorem peek : Action.peek.Takes 1 1 := by
  intro s
  unfold Action.peek
  cases hs : s.stack with
  | nil => exact ⟨⟨fun hl => by simp [hs] at hl, 0, by omega, rfl⟩, rfl, rfl⟩
  | cons v rest => exact ⟨⟨by simp [hs], [v], rfl, by simp [hs]⟩, rfl, rfl⟩

theorem popAs (read : Value → Option α) : (Action.popAs read).Takes 1 0 := by
  refine pop.bind (j := 0) fun v => ?_
  cases read v with
  | none => exact fail (by simp) 0
  | some a => exact yield a

theorem popTwo (read : Value → Option α) :
    (Action.popAs read >>= fun b => Action.popAs read >>= fun a => pure (a, b)).Takes 2 0 :=
  (popAs read).bind (j := 1) fun b => (popAs read).bind (j := 0) fun a => yield (a, b)

theorem lookup (name : String) : (Action.lookup name).Takes 0 0 := by
  intro s
  unfold Action.lookup
  cases s.dictionary.get? name with
  | none => exact .of_failure (by simp) 0 rfl rfl rfl
  | some w => exact .of_value w rfl rfl rfl

theorem print (text : String) : (Action.print text).Takes 0 0 := by
  intro s
  simp only [Action.print]
  split
  · exact .of_value () rfl rfl rfl
  · exact .of_failure (by simp) 0 rfl rfl rfl

end Takes

end Action

namespace Primitive

open Concatenative.Action

def arity? : Primitive → Option (Nat × Nat)
  | .dup => some (1, 2)
  | .drop => some (1, 0)
  | .swap => some (2, 2)
  | .over => some (2, 3)
  | .rot => some (3, 3)
  | .nip => some (2, 1)
  | .depth | .constant _ => some (0, 1)
  | .add | .subtract | .multiply | .divide | .remainder => some (2, 1)
  | .equal | .less | .greater | .both | .either => some (2, 1)
  | .negate => some (1, 1)
  | .throw | .see | .showValue | .print => some (1, 0)
  | .listWords | .showStack | .newline => some (0, 0)
  | .clear | .define | .call | .choose | .when | .unless | .recover | .ignoreErrors | .load => none

theorem takes_integers {f : Int64 × Int64 → Action Unit} (hf : ∀ p, (f p).Takes 0 1) :
    (popIntegers >>= f).Takes 2 1 :=
  (Takes.popTwo Value.integer?).bind (j := 0) hf

theorem takes_conditions {f : Bool × Bool → Action Unit} (hf : ∀ p, (f p).Takes 0 1) :
    (popConditions >>= f).Takes 2 1 :=
  (Takes.popTwo Value.condition?).bind (j := 0) hf

theorem takes_quotient (b : Int64) (v : Value) :
    (if b = 0 then Action.fail .divisionByZero else push v).Takes 0 1 := by
  split
  · exact .fail (by simp) 1
  · exact .push v

theorem takes_arity {p : Primitive} {i o : Nat} (h : p.arity? = some (i, o))
    (exec : Code → Action Unit) : (p.run exec).Takes i o := by
  cases p with
  | dup => cases h; exact Takes.peek.pushes fun v => pushes_push v
  | drop => cases h; exact Takes.pop.bind (j := 0) fun _ => .yield ()
  | swap =>
    cases h
    refine Takes.pop.bind (j := 1) fun b => Takes.pop.bind (j := 0) fun a => ?_
    exact (Takes.push b).pushes fun _ => pushes_push a
  | «over» =>
    cases h
    refine Takes.pop.bind (j := 1) fun b => Takes.pop.bind (j := 0) fun a => ?_
    exact (Takes.push a).pushes fun _ => (pushes_push b).append (pushes_push a)
  | rot =>
    cases h
    refine Takes.pop.bind (j := 2) fun c => Takes.pop.bind (j := 1) fun b =>
      Takes.pop.bind (j := 0) fun a => ?_
    exact (Takes.push b).pushes fun _ => (pushes_push c).append (pushes_push a)
  | nip =>
    cases h
    exact Takes.pop.bind (j := 1) fun b => Takes.pop.bind (j := 0) fun _ => .push b
  | depth => cases h; exact Takes.get.pushes fun _ => pushes_push _
  | constant c => cases h; exact .push _
  | add | subtract | multiply | equal | less | greater =>
    cases h
    exact takes_integers fun _ => .push _
  | divide | remainder =>
    cases h
    exact takes_integers fun ⟨_, b⟩ => takes_quotient b _
  | both | either =>
    cases h
    exact takes_conditions fun _ => .push _
  | negate => cases h; exact (Takes.popAs _).pushes fun _ => pushes_push _
  | throw => cases h; exact (Takes.popAs _).bind (j := 0) fun _ => .fail (by simp) 0
  | see =>
    cases h
    exact (Takes.popAs _).bind (j := 0) fun name =>
      (Takes.lookup name).bind (j := 0) fun _ => .print _
  | showValue => cases h; exact Takes.pop.bind (j := 0) fun _ => .print _
  | print => cases h; exact (Takes.popAs _).bind (j := 0) fun _ => .print _
  | listWords | showStack => cases h; exact Takes.get.bind (j := 0) fun _ => .print _
  | newline => cases h; exact .print _
  | clear | define | call | choose | when | «unless» | recover | ignoreErrors | load => cases h

theorem effect_arity {entry : PrimitiveEntry} (h : entry ∈ entries) (hclear : entry.name ≠ "clear")
    (hdefine : entry.name ≠ ";") (hopen : ¬ "???".toList <:+: entry.signature.toList) :
    ∃ e, (Word.primitive entry).effect = some e ∧
      entry.primitive.arity? = some (e.inputs.length, e.outputs.length) := by
  have hall : ∀ entry ∈ entries, entry.name ≠ "clear" → entry.name ≠ ";" →
      ¬ "???".toList <:+: entry.signature.toList →
      ((Word.primitive entry).effect.any fun e =>
        entry.primitive.arity? = some (e.inputs.length, e.outputs.length)) = true := by
    decide +kernel
  have hany := hall entry h hclear hdefine hopen
  cases he : (Word.primitive entry).effect with
  | none => simp [he] at hany
  | some e => exact ⟨e, rfl, by simpa [he] using hany⟩

/-- Under its name, each primitive word is registered with an effect that tells how many values it
takes and leaves, in every session and whatever a call does there. Left out are the words that run
quotations or files, the one that takes all values, and the one that takes an effect if it is there. -/
theorem effect_accurate {entry : PrimitiveEntry} (h : entry ∈ entries)
    (hclear : entry.name ≠ "clear") (hdefine : entry.name ≠ ";")
    (hopen : ¬ "???".toList <:+: entry.signature.toList) :
    ∃ w e, Dictionary.primitives.get? entry.name = some w ∧ w.effect = some e ∧
      ∀ call s, (w.meaning.run call s).Takes e.inputs.length e.outputs.length s := by
  obtain ⟨e, he, ha⟩ := effect_arity h hclear hdefine hopen
  exact ⟨.primitive entry, e, Dictionary.get?_primitives h, he,
    fun call => takes_arity ha (Code.run call)⟩

/-- The word that takes two integers and does not divide by zero: it takes them in both sessions, and
leaves a third one in the second. -/
theorem effect_accurate_remainder :
    let entry : PrimitiveEntry := ⟨"mod", .remainder,
      "Remainder of dividing the second number by the top number.", "a b -- remainder"⟩
    let session := fun stack =>
      { Session.start .standard (fun _ => none) .primitives .unlimited with stack }
    let s := session [.integer 0, .integer 7, .integer 8, .integer 9]
    let t := session [.integer 4, .integer (-7), .integer 8]
    (entry ∈ entries ∧ entry.name ≠ "clear" ∧ entry.name ≠ ";" ∧
      ¬ "???".toList <:+: entry.signature.toList) ∧
    ∃ w e, Dictionary.primitives.get? "mod" = some w ∧ w.effect = some e ∧
      ∀ call, ((w.meaning.run call s).Takes e.inputs.length e.outputs.length s ∧
          w.meaning.run call s = .failure .divisionByZero (session [.integer 8, .integer 9])) ∧
        (w.meaning.run call t).Takes e.inputs.length e.outputs.length t ∧
          w.meaning.run call t = .value () (session [.integer (-3), .integer 8]) := by
  intro entry session s t
  have h : entry ∈ entries ∧ entry.name ≠ "clear" ∧ entry.name ≠ ";" ∧
      ¬ "???".toList <:+: entry.signature.toList := by decide +kernel
  obtain ⟨w, e, hw, he, htakes⟩ := effect_accurate h.1 h.2.1 h.2.2.1 h.2.2.2
  obtain rfl : .primitive entry = w :=
    Option.some.inj ((Dictionary.get?_primitives h.1).symm.trans hw)
  exact ⟨h, _, e, hw, he, fun call => ⟨⟨htakes call s, rfl⟩, htakes call t, rfl⟩⟩

end Primitive

end Concatenative
