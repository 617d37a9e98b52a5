import Concatenative.Proofs.Invariants
import Concatenative.Proofs.LinesUnseen
import Concatenative.Proofs.RoundTrip
set_option autoImplicit false

namespace Concatenative

/-- A value such as runs have it: of the form that closed texts give, an error that was caught, or a
symbol that a text broke off in. -/
def Value.Occurs (v : Value) : Prop :=
  v.Formed Parameter.Named ∨ (∃ message, v = .failure message) ∨
    ∃ name, v = .symbol name ∧ name.toList.head? = some '"'

namespace Code

def Occurs (code : Code) : Prop := ∀ line v, .push line v ∈ code → v.Occurs

theorem occurs_of_formed {code : Code} (h : ∀ i ∈ code, i.Formed Parameter.Named) :
    code.Occurs := fun line v hv => .inl (h (.push line v) hv).2

theorem occurs_of_parse {source : String} {line : Nat} {code : Code}
    (h : parse source line = .ok code) : code.Occurs := by
  intro l v hv
  rcases pushed_of_parse h hv with hf | hs
  · exact .inl hf
  · exact .inr (.inr hs)

end Code

/-- All values of the session, and all that its words push, are such as runs have them. -/
structure Session.Occurs (s : Session) : Prop where
  stack : ∀ v ∈ s.stack, v.Occurs
  words : ∀ name w body, s.dictionary.get? name = some w → w.meaning = .compound body →
    Code.Occurs body

namespace StackDump

def invariance : Invariance Unit where
  value := Value.Occurs
  code := Code.Occurs
  holds _ := Session.Occurs

theorem lawful : invariance.Lawful where
  integer _ := .inl trivial
  boolean _ := .inl trivial
  failure message := .inr (.inl ⟨message, rfl⟩)
  quotation := by
    rintro body (hf | ⟨message, hm⟩ | ⟨name, hn, -⟩)
    · exact Code.occurs_of_formed ((Instruction.formedList_iff _ body).mp hf)
    · cases hm
    · cases hn
  code_push h := ⟨h _ _ List.mem_cons_self, fun l v hv => h l v (List.mem_cons_of_mem _ hv)⟩
  code_call h := fun l v hv => h l v (List.mem_cons_of_mem _ hv)
  parse := Code.occurs_of_parse
  pop h hs := by
    obtain ⟨hv, hrest⟩ := List.forall_mem_cons.mp (hs ▸ h.stack)
    exact ⟨hv, hrest, h.words⟩
  push h hv := ⟨List.forall_mem_cons.mpr ⟨hv, h.stack⟩, h.words⟩
  clear h := ⟨by simp, h.words⟩
  trail _ h := ⟨h.stack, h.words⟩
  write _ h := ⟨h.stack, h.words⟩
  define h hb := by
    refine ⟨h.stack, fun other w body hw hm => ?_⟩
    simp only [Dictionary.define, Dictionary.get?_insert] at hw
    split at hw
    · cases hw
      cases hm
      exact hb
    · exact h.words other w body hw hm
  body h hw hm := h.words _ _ _ hw hm

end StackDump

theorem Session.Leads.occurs {settings : Settings} {files : Files} {output : Sink} {s : Session}
    (h : (Session.start settings files .primitives output).Leads s) : s.Occurs := by
  refine StackDump.lawful.leads (i := ()) (fun _ hs => ⟨hs.stack, hs.words⟩) h ⟨by simp [start], ?_⟩
  intro name w body hw hm
  obtain ⟨entry, -, he⟩ := Dictionary.mem_primitives (Dictionary.mem_of_findEntry hw)
  cases he
  cases hm

/-- The instruction that a value on the stack is written as. Truth values are words. -/
def Value.instruction : Value → Instruction
  | .boolean true => .call 0 "t"
  | .boolean false => .call 0 "f"
  | v => .push 0 v

namespace Value

theorem pieces_instruction (v : Value) : v.instruction.pieces = v.pieces := by
  cases v with
  | boolean b => cases b <;> rfl
  | _ => rfl

theorem parameters_instruction (v : Value) : v.instruction.parameters = v.parameters := by
  cases v with
  | boolean b => cases b <;> rfl
  | _ => rfl

theorem formed_instruction {P : Parameter → Prop} {v : Value} (h : v.Formed P) :
    v.instruction.Formed P := by
  have ht : Atom.Callable "t" := ⟨by decide, by decide, rfl⟩
  have hf : Atom.Callable "f" := ⟨by decide, by decide, rfl⟩
  cases v with
  | boolean b =>
    cases b with
    | true => exact ht
    | false => exact hf
  | _ => exact ⟨rfl, h⟩

end Value

namespace Session

def rebuilding (s : Session) : Code := s.stack.reverse.map Value.instruction

theorem stackText_eq (s : Session) :
    s.stackText = " ".intercalate (Instruction.piecesList [.push 0 (.quotation s.rebuilding)]) := by
  have hpieces : Value.piecesList s.stack.reverse = Instruction.piecesList s.rebuilding := by
    rw [Value.piecesList_eq_flatMap, Instruction.piecesList_eq_flatMap, rebuilding,
      List.flatMap_map]
    simp only [Value.pieces_instruction]
  simp [stackText, hpieces, Instruction.piecesList, Instruction.pieces, Value.pieces]

theorem rebuilding_formed {P : Parameter → Prop} {s : Session} (h : ∀ v ∈ s.stack, v.Formed P) :
    (Value.quotation s.rebuilding).Formed P := by
  refine (Instruction.formedList_iff P s.rebuilding).mpr fun i hi => ?_
  obtain ⟨v, hv, rfl⟩ := List.mem_map.mp hi
  exact Value.formed_instruction (h v (by simpa using hv))

theorem mem_parameters_rebuilding {s : Session} {p : Parameter}
    (h : p ∈ (Value.quotation s.rebuilding).parameters) : ∃ v ∈ s.stack, p ∈ v.parameters := by
  rw [Value.parameters, Instruction.parametersList_eq_flatMap, rebuilding, List.flatMap_map] at h
  simpa only [Value.parameters_instruction, List.mem_flatMap, List.mem_reverse] using h

theorem parse_stackText {s : Session} (hformed : ∀ v ∈ s.stack, v.Formed Parameter.Named)
    (hprint : ∀ v ∈ s.stack, ∀ p ∈ v.parameters, p.Printable) (line : Nat) :
    ∃ l body, Code.parse s.stackText line = .ok [.push l (.quotation body)] ∧
      Code.eraseLines body = s.rebuilding.eraseLines := by
  have hread : ∀ i ∈ [Instruction.push 0 (.quotation s.rebuilding)], i.Formed Parameter.Named := by
    simpa using ⟨rfl, s.rebuilding_formed hformed⟩
  have hnames : ∀ p ∈ Code.parameters [.push 0 (.quotation s.rebuilding)], p.Printable := by
    intro p hp
    have hp : p ∈ (Value.quotation s.rebuilding).parameters := by
      simpa [Code.parameters, Instruction.parametersList, Instruction.parameters] using hp
    obtain ⟨v, hv, hp⟩ := mem_parameters_rebuilding hp
    exact hprint v hv p hp
  obtain ⟨code, hparse, herase⟩ := Code.parse_formed hread hnames line
  rw [← s.stackText_eq] at hparse
  cases LinesUnseen.paired herase with
  | push hv hrest =>
    cases LinesUnseen.alike hv with
    | quotation hb =>
      cases LinesUnseen.paired hrest
      exact ⟨_, _, hparse, hb⟩

end Session

namespace Action

theorem run_instruction (depth : Nat) (v : Value) {s : Session} (hd : s.dictionary = .primitives)
    (rest : Code) :
    Code.run (call (depth + 1)) (v.instruction :: rest) s =
      Code.run (call (depth + 1)) rest { s with stack := v :: s.stack } := by
  have htruth : ∀ {b name w}, Dictionary.primitives.get? name = some w →
      w.meaning = .primitive (.constant (.boolean b)) →
      Code.run (call (depth + 1)) (.call 0 name :: rest) s =
        Code.run (call (depth + 1)) rest { s with stack := .boolean b :: s.stack } :=
    fun hw hm => Code.run_call (call_eq depth (hd ▸ hw) hm) 0 rest
  cases v with
  | boolean b =>
    cases b with
    | true => exact htruth rfl rfl
    | false => exact htruth rfl rfl
  | _ => rfl

theorem exec_instructions (depth : Nat) (vs : List Value) {s : Session}
    (hd : s.dictionary = .primitives) :
    exec (depth + 1) (vs.map Value.instruction) s =
      .value () { s with stack := vs.reverse ++ s.stack } := by
  induction vs generalizing s with
  | nil => rfl
  | cons v vs ih =>
    have hrest := ih (s := { s with stack := v :: s.stack }) hd
    rw [exec] at hrest ⊢
    rw [List.map_cons, run_instruction depth v hd, hrest]
    simp

theorem exec_rebuilding (depth : Nat) {s fresh : Session} {body : Code}
    (hbody : body.eraseLines = s.rebuilding.eraseLines) (hd : fresh.dictionary = .primitives)
    (hstack : fresh.stack = []) :
    ∃ t, exec (depth + 1) body fresh = .value () t ∧
      t.eraseLines = { fresh with stack := s.stack }.eraseLines := by
  have hrun : exec (depth + 1) s.rebuilding fresh = .value () { fresh with stack := s.stack } := by
    have hr := exec_instructions depth s.stack.reverse hd
    rwa [List.reverse_reverse, hstack, List.append_nil] at hr
  have halike := exec_alike (depth + 1) hbody (Session.alike_iff.mpr (rfl : fresh.eraseLines = _))
  rw [hrun] at halike
  exact Result.eq_value_of_eraseLines halike

/-- The written form of the stack of any session that is reached from the primitive words is read as
one quotation, and to run its body with nothing but the primitive words rebuilds the stack, line
numbers apart. On the stack there are no errors and no symbols that a text broke off in, and all
names in effects can be written. -/
theorem exec_stackText {settings : Settings} {files : Files} {output : Sink} {s : Session}
    (hs : (Session.start settings files .primitives output).Leads s)
    (herror : ∀ message, .failure message ∉ s.stack)
    (hsymbol : ∀ name, .symbol name ∈ s.stack → name.toList.head? ≠ some '"')
    (hprint : ∀ v ∈ s.stack, ∀ p ∈ v.parameters, p.Printable) (line : Nat) :
    ∃ l body, Code.parse s.stackText line = .ok [.push l (.quotation body)] ∧
      ∀ settings files output depth,
        let fresh := Session.start settings files .primitives output
        ∃ t, exec (depth + 1) body fresh = .value () t ∧
          t.eraseLines = { fresh with stack := s.stack }.eraseLines := by
  have hformed : ∀ v ∈ s.stack, v.Formed Parameter.Named := by
    intro v hv
    rcases hs.occurs.stack v hv with hf | ⟨message, rfl⟩ | ⟨name, rfl, hq⟩
    · exact hf
    · exact absurd hv (herror message)
    · exact absurd hq (hsymbol name hv)
  obtain ⟨l, body, hparse, hbody⟩ := Session.parse_stackText hformed hprint line
  exact ⟨l, body, hparse, fun settings files output depth =>
    exec_rebuilding depth hbody rfl rfl⟩

/-- The second text uses a word of the first one and fails; what it has pushed by then is left. -/
theorem exec_stackText_failed :
    let start := Session.start .standard (fun _ => none) .primitives .unlimited
    ∃ s, start.Leads s ∧
      s.stack = [.effect (.mk [.nested "q" (.mk [.plain "a"] [])] []),
        .quotation [.push 1 (.symbol "]"), .call 1 "x"],
        .array [.boolean false, .integer (-7), .symbol "foo", .array [.boolean true]],
        .string "a\nb", .boolean true] ∧
      ∃ l body, Code.parse s.stackText 1 = .ok [.push l (.quotation body)] ∧
        ∃ t, exec 1 body start = .value () t ∧
          t.eraseLines = { start with stack := s.stack }.eraseLines := by
  intro start
  have hstack : ((runText 2 "two: [ t \"a\nb\" ] ;" start).session?.bind fun s =>
        (runText 2 "two \x7b f -07 foo \x7b t \x7d \x7d [ ]: x ] ( q: ( a ) -- ) 1 0 /" s).session?).map
        Session.stack =
      some [.effect (.mk [.nested "q" (.mk [.plain "a"] [])] []),
        .quotation [.push 1 (.symbol "]"), .call 1 "x"],
        .array [.boolean false, .integer (-7), .symbol "foo", .array [.boolean true]],
        .string "a\nb", .boolean true] := by
    decide +kernel
  simp only [Option.map_eq_some_iff, Option.bind_eq_some_iff] at hstack
  obtain ⟨s, ⟨first, hfirst, hs⟩, hstack⟩ := hstack
  have hleads : start.Leads s := .text 2 _ (.text 2 _ .refl hfirst) hs
  obtain ⟨l, body, hparse, hrun⟩ := exec_stackText hleads (by simp [hstack]) (by simp [hstack])
    (by rw [hstack]; decide) 1
  exact ⟨s, hleads, hstack, l, body, hparse, hrun .standard (fun _ => none) .unlimited 0⟩

end Action

end Concatenative
