import Concatenative.Proofs.Stepping
set_option autoImplicit false

/-!
The verdict on words. Whether words are code, and which error they get if they are not, can be told
without keeping what they say: of all that has been read, a scan remembers which brackets are open,
and of an open effect whether its dashes have come and whether its last name can still be given an
effect of its own.
-/
namespace Concatenative

inductive Enclosure where
  | quotation
  | array
  | effect (divided named : Bool)
  deriving DecidableEq, Repr

namespace Enclosure

def bracket : Enclosure → Bracket
  | .quotation => .square
  | .array => .curly
  | .effect _ _ => .round

def ofBracket : Bracket → Enclosure
  | .square => .quotation
  | .curly => .array
  | .round => .effect false false

/-- Only the innermost enclosure can be closed, whatever stands around it. -/
def close (b : Bracket) : List Enclosure → Except Error (List Enclosure)
  | [] => .error (.unopened b)
  | e :: outer => if e.bracket = b then .ok outer else .error (.unopened b)

/-- In an effect, nothing but the effect of the name before it can be opened. -/
def enter (b : Bracket) : List Enclosure → Except Error (List Enclosure)
  | .effect divided named :: outer =>
    if b = .round ∧ named then .ok (.effect false false :: .effect divided false :: outer)
    else .error .malformedEffect
  | outer => .ok (ofBracket b :: outer)

def divide : List Enclosure → Except Error (List Enclosure)
  | .effect false _ :: outer => .ok (.effect true false :: outer)
  | .effect true _ :: _ => .error .malformedEffect
  | outer => .ok outer

def name : List Enclosure → List Enclosure
  | .effect divided _ :: outer => .effect divided true :: outer
  | outer => outer

def scan (es : List Enclosure) (text : String) : Except Error (List Enclosure) :=
  if text = "[" then enter .square es
  else if text = "\x7b" then enter .curly es
  else if text = "(" then enter .round es
  else if text = "]" then close .square es
  else if text = "\x7d" then close .curly es
  else if text = ")" then close .round es
  else if text = "--" then divide es
  else .ok (name es)

/-- The first word that cannot stand where it stands decides; if there is none, what is open at the
end does. -/
def verdict : List Enclosure → List String → Except Error Unit
  | [], [] => .ok ()
  | e :: _, [] => .error (.unclosed e.bracket)
  | es, text :: texts => (scan es text).bind fun es' => verdict es' texts

theorem scan_eq (es : List Enclosure) (text : String) :
    scan es text = match Mark.ofText text with
      | .opens b => enter b es
      | .closes b => close b es
      | .dashes => divide es
      | .none => .ok (name es) := by
  grind [scan, Mark.ofText]

theorem verdict_cons (es : List Enclosure) (text : String) (texts : List String) :
    verdict es (text :: texts) = (scan es text).bind fun es' => verdict es' texts := by
  cases es <;> rfl

end Enclosure

open Enclosure (scan verdict)

namespace EffectDraft

def enclosure (d : EffectDraft) : Enclosure := .effect d.outputs.isSome d.pending.isSome

theorem enclosure_add (d : EffectDraft) (p : Parameter) : (d.add p).enclosure = d.enclosure := by
  obtain ⟨inputs, outputs, pending⟩ := d
  cases outputs <;> rfl

theorem settle_isSome (d : EffectDraft) : d.settle.outputs.isSome = d.outputs.isSome := by
  obtain ⟨inputs, outputs, pending⟩ := d
  cases pending <;> cases outputs <;> rfl

end EffectDraft

namespace EffectReading

def enclosures (r : EffectReading) : List Enclosure :=
  r.draft.enclosure :: r.outer.map fun o => o.1.enclosure

end EffectReading

def EffectProgress.enclosures : EffectProgress → List Enclosure
  | .more r => r.enclosures
  | .closed _ => []

namespace EffectReading

theorem enclosures_close (r : EffectReading) :
    r.close.enclosures = r.outer.map fun o => o.1.enclosure := by
  obtain ⟨line, draft, outer⟩ := r
  cases outer with
  | nil => rfl
  | cons o outer =>
    simp [close, EffectProgress.enclosures, enclosures, EffectDraft.enclosure_add]

theorem scan_step (r : EffectReading) (t : Token) (around : List Enclosure) :
    scan (r.enclosures ++ around) t.text = (r.step t).map fun p => p.enclosures ++ around := by
  rw [Enclosure.scan_eq]
  unfold step
  cases Mark.ofText t.text with
  | closes b =>
    cases b with
    | round =>
      have hclose := r.enclosures_close
      simp [Enclosure.close, enclosures, EffectDraft.enclosure, Enclosure.bracket, Except.map,
        hclose]
    | square => rfl
    | curly => rfl
  | opens b =>
    cases b with
    | round =>
      cases hp : r.draft.pending with
      | none => simp [Enclosure.enter, enclosures, EffectDraft.enclosure, nest, hp, Except.map]
      | some name =>
        simp [Enclosure.enter, enclosures, EffectDraft.enclosure, nest, hp, Except.map,
          EffectProgress.enclosures, EffectDraft.empty]
    | square => rfl
    | curly => rfl
  | dashes =>
    cases ho : r.draft.outputs with
    | none =>
      simp [Enclosure.divide, enclosures, EffectDraft.enclosure, divide, ho, Except.map,
        EffectProgress.enclosures]
    | some o => simp [Enclosure.divide, enclosures, EffectDraft.enclosure, divide, ho, Except.map]
  | none =>
    simp [Enclosure.name, enclosures, EffectDraft.enclosure, name, Except.map,
      EffectProgress.enclosures, EffectDraft.settle_isSome]

end EffectReading

def Frame.enclosure : Frame → Enclosure
  | .quotation _ _ => .quotation
  | .array _ _ => .array

namespace Reading

def enclosures (r : Reading) : List Enclosure :=
  match r.effect with
  | none => r.frames.map Frame.enclosure
  | some e => e.enclosures ++ r.frames.map Frame.enclosure

theorem enclosures_add (r : Reading) (line : Nat) (a : Atom) :
    (r.add line a).enclosures = r.enclosures := by
  obtain ⟨code, frames, effect⟩ := r
  cases frames with
  | nil => rfl
  | cons frame frames => cases frame <;> rfl

theorem scan_leave (r : Reading) (h : r.effect = none) (b : Bracket) :
    Enclosure.close b r.enclosures = (r.leave b).map enclosures := by
  obtain ⟨code, frames, effect⟩ := r
  obtain rfl : effect = none := h
  cases frames with
  | nil => rfl
  | cons frame frames =>
    -- What the bracket held goes into the enclosure around it, which stays what it is.
    have hadd := fun line a => (enclosures_add ⟨code, frames, none⟩ line a).symm
    cases frame with
    | quotation line body =>
      cases b with
      | square => exact congrArg Except.ok (hadd line _)
      | curly => rfl
      | round => rfl
    | array line items =>
      cases b with
      | curly => exact congrArg Except.ok (hadd line _)
      | square => rfl
      | round => rfl

theorem scan_word (r : Reading) (h : r.effect = none) :
    Enclosure.name r.enclosures = r.enclosures ∧
      Enclosure.divide r.enclosures = .ok r.enclosures := by
  obtain ⟨code, frames, effect⟩ := r
  obtain rfl : effect = none := h
  cases frames with
  | nil => exact ⟨rfl, rfl⟩
  | cons frame frames => cases frame <;> exact ⟨rfl, rfl⟩

theorem scan_enter (r : Reading) (h : r.effect = none) (line : Nat) (b : Bracket) :
    Enclosure.enter b r.enclosures = .ok (r.enter line b).enclosures := by
  obtain ⟨code, frames, effect⟩ := r
  obtain rfl : effect = none := h
  cases frames with
  | nil => cases b <;> rfl
  | cons frame frames => cases frame <;> cases b <;> rfl

/-- A word does to the enclosures of a reading what it does to the reading. -/
theorem scan_step (r : Reading) (t : Token) :
    scan r.enclosures t.text = (r.step t).map enclosures := by
  cases he : r.effect with
  | some e =>
    have hscan := e.scan_step t (r.frames.map Frame.enclosure)
    simp only [enclosures, he, hscan, step]
    cases e.step t with
    | error err => rfl
    | ok p =>
      cases p with
      | more e' => rfl
      | closed eff =>
        exact congrArg Except.ok (enclosures_add { r with effect := none } e.line _).symm
  | none =>
    obtain ⟨hname, hdivide⟩ := r.scan_word he
    have hadd := r.enclosures_add t.line (Atom.ofText t.text)
    rw [Enclosure.scan_eq]
    simp only [step, he]
    cases Mark.ofText t.text with
    | opens b => exact r.scan_enter he t.line b
    | closes b => exact r.scan_leave he b
    | dashes => simp only [Except.map, hdivide, hadd]
    | none => simp only [Except.map, hname, hadd]

theorem verdict_finish (r : Reading) :
    verdict r.enclosures [] = r.finish.map fun _ => () := by
  obtain ⟨code, frames, effect⟩ := r
  cases effect with
  | some e => rfl
  | none =>
    cases frames with
    | nil => rfl
    | cons frame frames => cases frame <;> rfl

theorem verdict_run (r : Reading) (ts : List Token) :
    verdict r.enclosures (ts.map Token.text) = ((r.run ts).bind finish).map fun _ => () := by
  induction ts generalizing r with
  | nil => exact r.verdict_finish
  | cons t ts ih =>
    rw [List.map_cons, Enclosure.verdict_cons, scan_step, run_cons]
    cases r.step t with
    | error e => rfl
    | ok r' => exact ih r'

end Reading

namespace Enclosure

theorem scan_error {es : List Enclosure} {text : String} {e : Error} (h : scan es text = .error e) :
    (∃ b, e = .unopened b) ∨ e = .malformedEffect := by
  rw [scan_eq] at h
  split at h
  · unfold enter at h
    split at h
    · split at h <;> cases h
      exact .inr rfl
    · cases h
  · next b _ =>
    unfold close at h
    split at h
    · cases h
      exact .inl ⟨b, rfl⟩
    · split at h <;> cases h
      exact .inl ⟨b, rfl⟩
  · unfold divide at h
    split at h <;> cases h
    exact .inr rfl
  · cases h

theorem verdict_error {es : List Enclosure} {texts : List String} {e : Error}
    (h : verdict es texts = .error e) :
    (∃ b, e = .unclosed b) ∨ (∃ b, e = .unopened b) ∨ e = .malformedEffect := by
  induction texts generalizing es with
  | nil =>
    cases es with
    | nil => cases h
    | cons f outer =>
      cases h
      exact .inl ⟨f.bracket, rfl⟩
  | cons text texts ih =>
    rw [verdict_cons] at h
    cases hs : scan es text with
    | error e' =>
      rw [hs] at h
      cases h
      exact .inr (scan_error hs)
    | ok es' =>
      rw [hs] at h
      exact ih h

end Enclosure

theorem Code.parse_error {source : String} {line : Nat} {e : Error}
    (h : Code.parse source line = .error e) :
    (∃ b, e = .unclosed b) ∨ (∃ b, e = .unopened b) ∨ e = .malformedEffect := by
  have hv := Reading.start.verdict_run (Token.words source line)
  rw [← Code.parse_eq_run, h] at hv
  exact Enclosure.verdict_error hv

/-- The procedures of the parser, each in the calls of the others, accept words or fail with the error
that the scan of open brackets comes to. -/
theorem Code.read_verdict (ts : List Token) :
    (Parser.program ts).map (fun _ => ()) = verdict [] (ts.map Token.text) := by
  rw [Parser.program_eq_run]
  exact (Reading.start.verdict_run ts).symm

example : verdict [] ["[", "(", "a", "]", ")"] = .error (.unopened .square) := rfl

end Concatenative
