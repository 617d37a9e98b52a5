import Concatenative.Parser
set_option autoImplicit false

/-!
Reading word by word. A reading keeps every bracket that is still open, with what has been read
inside it. An effect holds nothing but names and further effects, so it is read on its own and is
always the innermost open bracket. What the procedures of the parser keep in their calls of each
other, a reading keeps in its frames, and the two read the same and fail the same.
-/
namespace Concatenative

/-- The effect being read, and the effects it is nested in, innermost first, each with the name
that the effect inside belongs to. -/
structure EffectReading where
  line : Nat
  draft : EffectDraft
  outer : List (EffectDraft × String)
  deriving DecidableEq, Repr

inductive EffectProgress where
  | more (reading : EffectReading)
  | closed (effect : Effect)

namespace EffectReading

def start (line : Nat) : EffectReading := ⟨line, .empty, []⟩

def close (r : EffectReading) : EffectProgress :=
  match r.outer with
  | [] => .closed r.draft.effect
  | (d, name) :: outer =>
    .more { r with draft := d.add (.nested name r.draft.effect), outer }

/-- A bracket inside belongs to the name before it. -/
def nest (r : EffectReading) : Except Error EffectProgress :=
  match r.draft.pending with
  | none => .error .malformedEffect
  | some name =>
    .ok (.more { r with
      draft := .empty, outer := ({ r.draft with pending := none }, name) :: r.outer })

def divide (r : EffectReading) : Except Error EffectProgress :=
  match r.draft.outputs with
  | none => .ok (.more { r with draft := { r.draft.settle with outputs := some [] } })
  | some _ => .error .malformedEffect

def name (r : EffectReading) (text : String) : EffectProgress :=
  .more { r with draft :=
    { r.draft.settle with pending := some ((Atom.symbol? text).getD text) } }

def step (r : EffectReading) (t : Token) : Except Error EffectProgress :=
  match Mark.ofText t.text with
  | .closes .round => .ok r.close
  | .closes b => .error (.unopened b)
  | .opens .round => r.nest
  | .opens _ => .error .malformedEffect
  | .dashes => r.divide
  | .none => .ok (r.name t.text)

def run (r : EffectReading) : List Token → Except Error (Effect × List Token)
  | [] => .error (.unclosed .round)
  | t :: ts =>
    match r.step t with
    | .error e => .error e
    | .ok (.more r') => r'.run ts
    | .ok (.closed e) => .ok (e, ts)

end EffectReading

inductive Frame where
  | quotation (line : Nat) (body : Code)
  | array (line : Nat) (items : List Value)
  deriving DecidableEq

def Frame.bracket : Frame → Bracket
  | .quotation _ _ => .square
  | .array _ _ => .curly

/-- The code read so far, latest first, and the open brackets, innermost first. -/
structure Reading where
  code : Code
  frames : List Frame
  effect : Option EffectReading
  deriving DecidableEq

namespace Reading

def start : Reading := ⟨[], [], none⟩

def add (r : Reading) (line : Nat) (a : Atom) : Reading :=
  match r.frames with
  | [] => { r with code := a.instruction line :: r.code }
  | .quotation l body :: fs => { r with frames := .quotation l (a.instruction line :: body) :: fs }
  | .array l items :: fs => { r with frames := .array l (a.item :: items) :: fs }

def enter (r : Reading) (line : Nat) : Bracket → Reading
  | .square => { r with frames := .quotation line [] :: r.frames }
  | .curly => { r with frames := .array line [] :: r.frames }
  | .round => { r with effect := some (.start line) }

def leave (r : Reading) (b : Bracket) : Except Error Reading :=
  match r.frames, b with
  | .quotation l body :: fs, .square =>
    .ok ({ r with frames := fs }.add l (.literal (.quotation body.reverse)))
  | .array l items :: fs, .curly =>
    .ok ({ r with frames := fs }.add l (.literal (.array items.reverse)))
  | _, b => .error (.unopened b)

def step (r : Reading) (t : Token) : Except Error Reading :=
  match r.effect with
  | some e =>
    match e.step t with
    | .error err => .error err
    | .ok (.more e') => .ok { r with effect := some e' }
    | .ok (.closed eff) => .ok ({ r with effect := none }.add e.line (.literal (.effect eff)))
  | none =>
    match Mark.ofText t.text with
    | .opens b => .ok (r.enter t.line b)
    | .closes b => r.leave b
    | .dashes | .none => .ok (r.add t.line (Atom.ofText t.text))

def finish (r : Reading) : Except Error Code :=
  match r.effect, r.frames with
  | some _, _ => .error (.unclosed .round)
  | none, f :: _ => .error (.unclosed f.bracket)
  | none, [] => .ok r.code.reverse

def run (r : Reading) (ts : List Token) : Except Error Reading := ts.foldlM step r

theorem run_cons (r : Reading) (t : Token) (ts : List Token) :
    r.run (t :: ts) = (r.step t).bind fun r' => r'.run ts := rfl

theorem run_append (r : Reading) (ts us : List Token) :
    r.run (ts ++ us) = (r.run ts).bind fun r' => r'.run us := by
  simp [run, bind]

end Reading

namespace Bracket

def opening : Bracket → String
  | .square => "["
  | .curly => "\x7b"
  | .round => "("

def closing : Bracket → String
  | .square => "]"
  | .curly => "\x7d"
  | .round => ")"

end Bracket

namespace Mark

theorem ofText_closing (b : Bracket) : ofText b.closing = .closes b := by
  cases b <;> decide

theorem eq_opening {text : String} {b : Bracket} (h : ofText text = .opens b) :
    text = b.opening := by
  cases b <;> grind [ofText, Bracket.opening]

theorem eq_closing {text : String} {b : Bracket} (h : ofText text = .closes b) :
    text = b.closing := by
  cases b <;> grind [ofText, Bracket.closing]

theorem eq_dashes {text : String} (h : ofText text = .dashes) : text = "--" := by
  grind [ofText]

end Mark

namespace EffectReading

/-- What becomes of a reading when the innermost effect turns out to be `e`. -/
def resume (line : Nat) (e : Effect) (rest : List Token) :
    List (EffectDraft × String) → Except Error (Effect × List Token)
  | [] => .ok (e, rest)
  | (d, name) :: outer => (EffectReading.mk line (d.add (.nested name e)) outer).run rest

theorem run_close (r : EffectReading) {t : Token} (h : t.text = ")") (rest : List Token) :
    r.run (t :: rest) = resume r.line r.draft.effect rest r.outer := by
  obtain ⟨line, draft, outer⟩ := r
  have hm : Mark.ofText ")" = .closes .round := by decide
  cases outer <;> simp [run, step, h, hm, close, resume]

theorem run_name (r : EffectReading) {t : Token} (h : Mark.ofText t.text = .none)
    (rest : List Token) :
    r.run (t :: rest) =
      { r with draft := { r.draft.settle with
          pending := some ((Atom.symbol? t.text).getD t.text) } }.run rest := by
  simp [run, step, h, name]

theorem run_nest (r : EffectReading) {t : Token} (h : t.text = "(") {name : String}
    (hp : r.draft.pending = some name) (rest : List Token) :
    r.run (t :: rest) =
      (EffectReading.mk r.line .empty
        (({ r.draft with pending := none }, name) :: r.outer)).run rest := by
  have hm : Mark.ofText "(" = .opens .round := by decide
  simp [run, step, h, hm, nest, hp]

theorem run_divide (r : EffectReading) {t : Token} (h : t.text = "--")
    (ho : r.draft.outputs = none) (rest : List Token) :
    r.run (t :: rest) =
      { r with draft := { r.draft.settle with outputs := some [] } }.run rest := by
  have hm : Mark.ofText "--" = .dashes := by decide
  simp [run, step, h, hm, divide, ho]

theorem step_line {e e' : EffectReading} {t : Token} (h : e.step t = .ok (.more e')) :
    e'.line = e.line := by
  obtain ⟨line, draft, outer⟩ := e
  unfold step at h
  split at h
  · cases outer with
    | nil => simp [close] at h
    | cons d outer =>
      simp only [close, Except.ok.injEq, EffectProgress.more.injEq] at h
      rw [← h]
  · simp at h
  · unfold nest at h
    split at h
    · simp at h
    · cases h
      rfl
  · simp at h
  · unfold divide at h
    split at h
    · cases h
      rfl
    · simp at h
  · cases h
    rfl

/-- An effect that has been read goes to the name it belongs to, in the effect around it. -/
theorem run_eq_effect (line : Nat) (d : EffectDraft) (outer : List (EffectDraft × String))
    (ts : List Token) :
    (EffectReading.mk line d outer).run ts =
      Parser.effect d ts >>= fun p => resume line p.value p.rest outer := by
  cases ts with
  | nil =>
    rw [Parser.effect]
    rfl
  | cons t ts =>
    rw [Parser.effect]
    cases hm : Mark.ofText t.text with
    | closes b =>
      cases b with
      | round =>
        rw [run_close _ (Mark.eq_closing hm)]
        rfl
      | square => simp [run, step, hm, bind, Except.bind]
      | curly => simp [run, step, hm, bind, Except.bind]
    | opens b =>
      cases b with
      | round =>
        cases hp : d.pending with
        | none => simp [run, step, hm, nest, hp, bind, Except.bind]
        | some name =>
          rw [run_nest _ (Mark.eq_opening hm) hp, run_eq_effect line .empty]
          simp only [bind_assoc, pure_bind]
          -- The nested effect is read by a call of its own; the draft goes on after it.
          refine bind_congr fun nested => ?_
          have hshrinks := nested.shrinks
          exact run_eq_effect line _ outer nested.rest
      | square => simp [run, step, hm, bind, Except.bind]
      | curly => simp [run, step, hm, bind, Except.bind]
    | dashes =>
      cases ho : d.outputs with
      | none =>
        rw [run_divide _ (Mark.eq_dashes hm) ho, run_eq_effect line _ outer ts]
        simp only [bind_assoc, pure_bind]
        rfl
      | some o => simp [run, step, hm, divide, ho, bind, Except.bind]
    | none =>
      rw [run_name _ hm, run_eq_effect line _ outer ts]
      simp only [bind_assoc, pure_bind]
      rfl
termination_by ts.length
decreasing_by all_goals simp only [List.length_cons]; omega

end EffectReading

namespace Reading

@[simp] theorem add_effect (r : Reading) (line : Nat) (a : Atom) :
    (r.add line a).effect = r.effect := by
  unfold add
  split <;> rfl

theorem run_effect {e : EffectReading} {ts rest : List Token} {eff : Effect}
    (h : e.run ts = .ok (eff, rest)) (code : Code) (frames : List Frame) :
    (Reading.mk code frames (some e)).run ts =
      ((Reading.mk code frames none).add e.line (.literal (.effect eff))).run rest := by
  induction ts generalizing e with
  | nil => simp [EffectReading.run] at h
  | cons t ts ih =>
    unfold EffectReading.run at h
    cases hs : e.step t with
    | error err => simp [hs] at h
    | ok p =>
      cases p with
      | more e' =>
        rw [hs] at h
        rw [← EffectReading.step_line hs, ← ih h]
        simp [run_cons, step, hs, Except.bind]
      | closed eff' =>
        simp only [hs, Except.ok.injEq, Prod.mk.injEq] at h
        obtain ⟨rfl, rfl⟩ := h
        simp [run_cons, step, hs, Except.bind]

theorem run_enter {r : Reading} (h : r.effect = none) {t : Token} {b : Bracket}
    (hm : Mark.ofText t.text = .opens b) (rest : List Token) :
    r.run (t :: rest) = (r.enter t.line b).run rest := by
  simp [run_cons, step, h, hm, Except.bind]

theorem run_atom {r : Reading} (h : r.effect = none) {t : Token}
    (hm : Mark.ofText t.text = .none ∨ Mark.ofText t.text = .dashes) (rest : List Token) :
    r.run (t :: rest) = (r.add t.line (Atom.ofText t.text)).run rest := by
  rcases hm with hm | hm <;> simp [run_cons, step, h, hm, Except.bind]

theorem run_leave {r r' : Reading} (h : r.effect = none) {t : Token} {b : Bracket}
    (hm : Mark.ofText t.text = .closes b) (hr : r.leave b = .ok r') (rest : List Token) :
    r.run (t :: rest) = r'.run rest := by
  simp [run_cons, step, h, hm, hr, Except.bind]

def complete (r : Reading) (ts : List Token) : Except Error Code := (r.run ts).bind finish

theorem complete_cons (r : Reading) (t : Token) (ts : List Token) :
    r.complete (t :: ts) = r.step t >>= fun r' => r'.complete ts := by
  rw [complete, run_cons]
  cases r.step t <;> rfl

theorem complete_effect (e : EffectReading) (code : Code) (frames : List Frame) (ts : List Token) :
    (Reading.mk code frames (some e)).complete ts = e.run ts >>= fun (eff, rest) =>
      ((Reading.mk code frames none).add e.line (.literal (.effect eff))).complete rest := by
  induction ts generalizing e with
  | nil => rfl
  | cons t ts ih =>
    rw [complete_cons, EffectReading.run]
    cases hs : e.step t with
    | error err => simp [step, hs, bind, Except.bind]
    | ok p =>
      cases p with
      | more e' =>
        rw [← EffectReading.step_line hs]
        simp only [step, hs, bind, Except.bind]
        exact ih e'
      | closed eff => simp [step, hs, bind, Except.bind]

theorem complete_unopened {r : Reading} (hr : r.effect = none) {t : Token} {b : Bracket}
    (hm : Mark.ofText t.text = .closes b) (hl : r.leave b = .error (.unopened b))
    (ts : List Token) : r.complete (t :: ts) = .error (.unopened b) := by
  simp [complete_cons, step, hr, hm, hl, bind, Except.bind]

mutual

theorem complete_quotation (code : Code) (frames : List Frame) (line : Nat) (body : Code)
    (ts : List Token) :
    (Reading.mk code (.quotation line body :: frames) none).complete ts =
      Parser.quotation ts >>= fun p => ((Reading.mk code frames none).add line
        (.literal (.quotation (body.reverse ++ p.value)))).complete p.rest := by
  cases ts with
  | nil =>
    rw [Parser.quotation]
    rfl
  | cons t ts =>
    rw [Parser.quotation]
    split
    · next hm =>
      rw [complete, run_leave rfl hm rfl]
      simp [bind, Except.bind, complete]
    · next b hb hm =>
      refine complete_unopened rfl hm ?_ ts
      cases b with
      | square => exact absurd rfl hb
      | curly => rfl
      | round => rfl
    · next hm =>
      rw [complete_element _ rfl t ts hm]
      simp only [bind_assoc, pure_bind]
      refine bind_congr fun a => ?_
      have hshrinks := a.shrinks
      rw [add, complete_quotation]
      simp [Parsed.within, Parsed.map]
termination_by 2 * ts.length
decreasing_by all_goals simp only [List.length_cons]; omega

theorem complete_array (code : Code) (frames : List Frame) (line : Nat) (items : List Value)
    (ts : List Token) :
    (Reading.mk code (.array line items :: frames) none).complete ts =
      Parser.array ts >>= fun p => ((Reading.mk code frames none).add line
        (.literal (.array (items.reverse ++ p.value)))).complete p.rest := by
  cases ts with
  | nil =>
    rw [Parser.array]
    rfl
  | cons t ts =>
    rw [Parser.array]
    split
    · next hm =>
      rw [complete, run_leave rfl hm rfl]
      simp [bind, Except.bind, complete]
    · next b hb hm =>
      refine complete_unopened rfl hm ?_ ts
      cases b with
      | square => rfl
      | curly => exact absurd rfl hb
      | round => rfl
    · next hm =>
      rw [complete_element _ rfl t ts hm]
      simp only [bind_assoc, pure_bind]
      refine bind_congr fun a => ?_
      have hshrinks := a.shrinks
      rw [add, complete_array]
      simp [Parsed.within, Parsed.map]
termination_by 2 * ts.length
decreasing_by all_goals simp only [List.length_cons]; omega

theorem complete_element (r : Reading) (hr : r.effect = none) (t : Token) (ts : List Token)
    (hm : ∀ b, Mark.ofText t.text ≠ .closes b) :
    r.complete (t :: ts) =
      Parser.element t ts >>= fun p => (r.add t.line p.value).complete p.rest := by
  obtain ⟨code, frames, effect⟩ := r
  obtain rfl : effect = none := hr
  rw [Parser.element]
  split
  · next hopen =>
    rw [complete, run_enter rfl hopen]
    simp only [bind_assoc, pure_bind]
    exact complete_quotation code frames t.line [] ts
  · next hopen =>
    rw [complete, run_enter rfl hopen]
    simp only [bind_assoc, pure_bind]
    exact complete_array code frames t.line [] ts
  · next hopen =>
    have heffect := complete_effect (.start t.line) code frames ts
    rw [EffectReading.start, EffectReading.run_eq_effect] at heffect
    rw [complete, run_enter rfl hopen]
    simp only [bind_assoc, pure_bind] at heffect ⊢
    exact heffect
  · next hsquare hcurly hround =>
    have hatom : Mark.ofText t.text = .none ∨ Mark.ofText t.text = .dashes := by
      cases hmark : Mark.ofText t.text with
      | opens b =>
        cases b with
        | square => exact absurd hmark hsquare
        | curly => exact absurd hmark hcurly
        | round => exact absurd hmark hround
      | closes b => exact absurd hmark (hm b)
      | dashes => exact .inr rfl
      | none => exact .inl rfl
    rw [complete, run_atom rfl hatom]
    rfl
termination_by 2 * ts.length + 1
decreasing_by all_goals omega

end

theorem complete_program (code : Code) (ts : List Token) :
    (Reading.mk code [] none).complete ts = (Parser.program ts).map (code.reverse ++ ·) := by
  cases ts with
  | nil =>
    rw [Parser.program]
    simp [complete, run, finish, Except.bind, Except.map, pure, Except.pure]
  | cons t ts =>
    rw [Parser.program]
    split
    · next b hm => exact complete_unopened rfl hm rfl ts
    · next hm =>
      rw [complete_element _ rfl t ts hm]
      cases Parser.element t ts with
      | error e => rfl
      | ok a =>
        have hshrinks := a.shrinks
        have hrest := complete_program (a.value.instruction t.line :: code) a.rest
        simp only [bind, Except.bind, add, hrest]
        cases Parser.program a.rest with
        | error e => rfl
        | ok rest => simp [Except.map, pure, Except.pure]
termination_by ts.length
decreasing_by simp only [List.length_cons]; omega

end Reading

/-- The procedures of the parser and the reading that keeps its open brackets come to the same. -/
theorem Parser.program_eq_run (ts : List Token) :
    Parser.program ts = (Reading.start.run ts).bind Reading.finish := by
  have h := Reading.complete_program [] ts
  rw [Reading.complete] at h
  rw [Reading.start, h]
  cases Parser.program ts <;> rfl

theorem Code.parse_eq_run (source : String) (line : Nat) :
    Code.parse source line = (Reading.start.run (Token.words source line)).bind Reading.finish :=
  Parser.program_eq_run _

theorem EffectReading.run_start (line : Nat) (ts : List Token) :
    (EffectReading.start line).run ts =
      (Parser.effect .empty ts).map fun p => (p.value, p.rest) := by
  rw [EffectReading.start, EffectReading.run_eq_effect]
  cases Parser.effect .empty ts <;> rfl

theorem Effect.parse_ok_iff_run {source : String} {e : Effect} :
    Effect.parse source = .ok e ↔ ∃ t ts, Token.words source 1 = t :: ts ∧ t.text = "(" ∧
      (EffectReading.start t.line).run ts = .ok (e, []) := by
  unfold Effect.parse
  constructor
  · intro h
    split at h
    · cases h
    · next t ts hw =>
      split at h
      · next ht =>
        refine ⟨t, ts, hw, ht, ?_⟩
        rw [EffectReading.run_start]
        split at h
        · cases h
        · next e' _ hp =>
          cases h
          rw [hp]
          rfl
        · cases h
      · cases h
  · rintro ⟨t, ts, hw, ht, hr⟩
    rw [EffectReading.run_start] at hr
    rw [hw]
    cases hp : Parser.effect .empty ts with
    | error err =>
      rw [hp] at hr
      cases hr
    | ok p =>
      obtain ⟨e', rest, hrest⟩ := p
      rw [hp] at hr
      cases hr
      simp [ht, hp]

end Concatenative
