import Concatenative.Proofs.LinesUnseen
import Concatenative.Proofs.RoundTrip
set_option autoImplicit false

namespace Concatenative

mutual

def Value.parts : Value → List Value
  | .array items => .array items :: Value.partsList items
  | .quotation body => .quotation body :: Instruction.partsList body
  | .integer n => [.integer n]
  | .boolean b => [.boolean b]
  | .string s => [.string s]
  | .symbol name => [.symbol name]
  | .effect e => [.effect e]
  | .failure message => [.failure message]

def Value.partsList : List Value → List Value
  | [] => []
  | v :: vs => v.parts ++ Value.partsList vs

def Instruction.parts : Instruction → List Value
  | .push _ v => v.parts
  | .call _ _ => []

def Instruction.partsList : List Instruction → List Value
  | [] => []
  | i :: is => i.parts ++ Instruction.partsList is

end

def Code.parts (code : Code) : List Value := Instruction.partsList code

theorem Instruction.mem_partsList {is : List Instruction} {v : Value} :
    v ∈ Instruction.partsList is ↔ ∃ i ∈ is, v ∈ i.parts := by
  induction is with
  | nil => simp [partsList]
  | cons i is ih => simp [partsList, ih]

section
variable {P : Parameter → Prop}

mutual

theorem Value.Formed.parts : (v : Value) → v.Formed P → ∀ w ∈ v.parts, w.Formed P
  | .array items, h => List.forall_mem_cons.mpr ⟨h, Value.FormedList.parts items h⟩
  | .quotation body, h => List.forall_mem_cons.mpr ⟨h, Instruction.FormedList.parts body h⟩
  | .integer _, h => by simpa [Value.parts] using h
  | .boolean _, h => by simpa [Value.parts] using h
  | .string _, h => by simpa [Value.parts] using h
  | .symbol _, h => by simpa [Value.parts] using h
  | .effect _, h => by simpa [Value.parts] using h
  | .failure _, h => h.elim

theorem Value.FormedList.parts : (vs : List Value) → Value.FormedList P vs →
    ∀ w ∈ Value.partsList vs, w.Formed P
  | [], _ => by simp [Value.partsList]
  | v :: vs, h => by
    simp only [Value.partsList, List.forall_mem_append]
    exact ⟨Value.Formed.parts v h.1, Value.FormedList.parts vs h.2⟩

theorem Instruction.Formed.parts : (i : Instruction) → i.Formed P → ∀ w ∈ i.parts, w.Formed P
  | .push _ v, h => Value.Formed.parts v h.2
  | .call _ _, _ => by simp [Instruction.parts]

theorem Instruction.FormedList.parts : (is : List Instruction) → Instruction.FormedList P is →
    ∀ w ∈ Instruction.partsList is, w.Formed P
  | [], _ => by simp [Instruction.partsList]
  | i :: is, h => by
    simp only [Instruction.partsList, List.forall_mem_append]
    exact ⟨Instruction.Formed.parts i h.1, Instruction.FormedList.parts is h.2⟩

end

end

/-- Whatever is read is well formed at every depth, but for a symbol that a text breaks off in. -/
theorem Code.part_formed {source : String} {line : Nat} {code : Code}
    (h : Code.parse source line = .ok code) {v : Value} (hv : v ∈ code.parts) :
    v.Formed Parameter.Named ∨ ∃ name, v = .symbol name ∧ name.toList.head? = some '"' := by
  obtain ⟨i, hi, hv⟩ := Instruction.mem_partsList.mp hv
  cases i with
  | call l name => simp [Instruction.parts] at hv
  | push l u =>
    rcases Code.pushed_of_parse h hi with hu | ⟨name, rfl, hq⟩
    · exact .inl (Value.Formed.parts u hu v hv)
    · exact .inr ⟨name, by simpa [Instruction.parts, Value.parts] using hv, hq⟩

theorem Effect.parse_code {source : String} {e : Effect} (h : Effect.parse source = .ok e) :
    ∃ l, Code.parse source 1 = .ok [.push l (.effect e)] := by
  obtain ⟨t, ts, hw, ht, hr⟩ := Effect.parse_ok_iff_run.mp h
  have hm : Mark.ofText t.text = .opens .round := by
    rw [ht]
    decide
  refine ⟨t.line, ?_⟩
  rw [Code.parse_eq_run, hw, Reading.run_enter rfl hm]
  exact congrArg (Except.bind · Reading.finish) (Reading.run_effect hr [] [])

/-- Code that was read: all code of a text that does not break off in a string, or the body of a
quotation, however deep, in the code of any text. -/
inductive Code.Read : Code → Prop
  | text {source : String} {line : Nat} {code : Code} : Code.parse source line = .ok code →
      ¬ Token.EndsInString source → Code.Read code
  | quotation {source : String} {line : Nat} {code body : Code} :
      Code.parse source line = .ok code → .quotation body ∈ code.parts → Code.Read body

/-- An effect that was read, as a signature or in the code of a text. -/
inductive Effect.Read : Effect → Prop
  | signature {source : String} {e : Effect} : Effect.parse source = .ok e → Effect.Read e
  | literal {source : String} {line : Nat} {code : Code} {e : Effect} :
      Code.parse source line = .ok code → .effect e ∈ code.parts → Effect.Read e

theorem Code.Read.formed {body : Code} (h : body.Read) :
    (Value.quotation body).Formed Parameter.Named := by
  cases h with
  | text h hs => exact (Instruction.formedList_iff _ body).mpr (Code.formed_of_closed h hs)
  | quotation h hb =>
    rcases Code.part_formed h hb with hf | ⟨name, hn, -⟩
    · exact hf
    · cases hn

theorem Effect.Read.formed {e : Effect} (h : e.Read) : (Value.effect e).Formed Parameter.Named := by
  have key : ∀ {source line code}, Code.parse source line = .ok code → .effect e ∈ code.parts →
      (Value.effect e).Formed Parameter.Named := by
    intro source line code h he
    rcases Code.part_formed h he with hf | ⟨name, hn, -⟩
    · exact hf
    · cases hn
  cases h with
  | signature h =>
    obtain ⟨l, hl⟩ := Effect.parse_code h
    exact key hl (by simp [Code.parts, Instruction.partsList, Instruction.parts, Value.parts])
  | literal h he => exact key h he

namespace Code

def defining (l₁ l₂ l₃ l₄ : Nat) (name : String) (effect : Option Effect) (body : Code) : Code :=
  .push l₁ (.symbol name) :: (effect.map fun e => Instruction.push l₂ (.effect e)).toList ++
    [.push l₃ (.quotation body), .call l₄ ";"]

theorem pieces_defining (l₁ l₂ l₃ l₄ : Nat) (name : String) (effect : Option Effect)
    (body : Code) :
    Instruction.piecesList (defining l₁ l₂ l₃ l₄ name effect body) =
      (Word.compound name effect body).pieces := by
  cases effect <;>
    simp [defining, Word.compound, Word.pieces, Instruction.piecesList, Instruction.pieces,
      Value.pieces]

theorem parameters_defining (l₁ l₂ l₃ l₄ : Nat) (name : String) (effect : Option Effect)
    (body : Code) :
    (defining l₁ l₂ l₃ l₄ name effect body).parameters =
      (effect.map Effect.parameters).getD [] ++ body.parameters := by
  cases effect <;>
    simp [defining, parameters, Instruction.parametersList, Instruction.parameters,
      Value.parameters]

theorem defining_formed {name : String} {effect : Option Effect} {body : Code} (hname : name ≠ "")
    (hblank : ∀ c ∈ name.toList, Text.isSeparator c = false)
    (hquote : name.toList.head? ≠ some '"')
    (heffect : ∀ e ∈ effect, (Value.effect e).Formed Parameter.Named)
    (hbody : (Value.quotation body).Formed Parameter.Named) (l₁ l₂ l₃ l₄ : Nat) :
    ∀ i ∈ defining l₁ l₂ l₃ l₄ name effect body, i.Formed Parameter.Named := by
  -- With its colon, even a lone backslash is no comment.
  have hcolon : (name ++ ":").toList = name.toList ++ [':'] := by simp
  have hbare : Lexeme.Bare (name ++ ":").toList := by
    rw [hcolon]
    refine ⟨by simp, ?_, ?_, List.forall_mem_append.mpr ⟨hblank, by simp; decide⟩⟩
    · rwa [List.head?_append, Option.or_of_isSome (by simpa using hname)]
    · intro h
      simpa using congrArg List.getLast? h
  have hcall : Atom.Callable ";" := ⟨by decide, by decide, rfl⟩
  intro i hi
  simp only [defining, List.cons_append, List.mem_cons, List.mem_append, Option.mem_toList,
    Option.map_eq_some_iff, List.not_mem_nil, or_false] at hi
  rcases hi with rfl | ⟨e, he, rfl⟩ | rfl | rfl
  · exact ⟨rfl, hname, hbare⟩
  · exact ⟨rfl, heffect e he⟩
  · exact ⟨rfl, hbody⟩
  · exact hcall

/-- Code that is the same as a definition but for lines is a definition of the same word but for
lines. -/
theorem eq_defining {l₁ l₂ l₃ l₄ : Nat} {name : String} {effect : Option Effect} {body code : Code}
    (h : code.eraseLines = (defining l₁ l₂ l₃ l₄ name effect body).eraseLines) :
    ∃ k₁ k₂ k₃ k₄ body', body'.eraseLines = body.eraseLines ∧
      code = defining k₁ k₂ k₃ k₄ name effect body' := by
  have hend : ∀ {rest : Code},
      rest.eraseLines = Code.eraseLines [.push l₃ (.quotation body), .call l₄ ";"] →
      ∃ k₃ k₄, ∃ body' : Code, body'.eraseLines = body.eraseLines ∧
        rest = [.push k₃ (.quotation body'), .call k₄ ";"] := by
    intro rest h
    cases LinesUnseen.paired h with
    | push hv hr =>
      cases LinesUnseen.alike hv with
      | quotation hb =>
        cases LinesUnseen.paired hr with
        | call _ _ hr =>
          cases LinesUnseen.paired hr
          exact ⟨_, _, _, hb, rfl⟩
  cases LinesUnseen.paired h with
  | push hv hr =>
    cases LinesUnseen.alike hv
    cases effect with
    | none =>
      obtain ⟨k₃, k₄, body', hb, rfl⟩ := hend hr
      exact ⟨_, 0, k₃, k₄, body', hb, rfl⟩
    | some e =>
      cases LinesUnseen.paired hr with
      | push he hr' =>
        cases LinesUnseen.alike he
        obtain ⟨k₃, k₄, body', hb, rfl⟩ := hend hr'
        exact ⟨_, _, k₃, k₄, body', hb, rfl⟩

end Code

namespace Action

theorem exec_defining (depth : Nat) (l₁ l₂ l₃ l₄ : Nat) (name : String) (effect : Option Effect)
    (body : Code) {s : Session} {w : Word} (hw : s.dictionary.get? ";" = some w)
    (hm : w.meaning = .primitive .define) :
    exec (depth + 1) (.defining l₁ l₂ l₃ l₄ name effect body) s =
      .value () { s with dictionary := s.dictionary.define (.compound name effect body) } := by
  -- On top of the stack are then the body, perhaps the effect, and the name.
  have hend : ∀ t : Session, t.dictionary = s.dictionary →
      Primitive.define.run (Code.run (call depth)) t =
        .value () { s with dictionary := s.dictionary.define (.compound name effect body) } →
      Code.run (call (depth + 1)) [.call l₄ ";"] t =
        .value () { s with dictionary := s.dictionary.define (.compound name effect body) } := by
    intro t ht hd
    have hcall := call_eq depth (s := t) (ht ▸ hw) hm
    exact Code.run_call (hcall.trans hd) l₄ []
  cases effect with
  | none => exact hend { s with stack := .quotation body :: .symbol name :: s.stack } rfl rfl
  | some e =>
    exact hend { s with stack := .quotation body :: .effect e :: .symbol name :: s.stack } rfl rfl

end Action

namespace Word

/-- The written form of a compound word is read as code that defines the word again, line numbers
apart, wherever the semicolon defines words. Its body and its effect were read from texts, with names
in effects that can be written, and its name is one that can be written with a colon. -/
theorem text_redefines {name : String} {effect : Option Effect} {body : Code}
    (hbody : body.Read) (heffect : ∀ e ∈ effect, e.Read)
    (hprint : ∀ p ∈ body.parameters, p.Printable)
    (hprint' : ∀ e ∈ effect, ∀ p ∈ e.parameters, p.Printable)
    (hname : name ≠ "") (hblank : ∀ c ∈ name.toList, Text.isSeparator c = false)
    (hquote : name.toList.head? ≠ some '"') (line : Nat) :
    ∃ code, Code.parse (compound name effect body).text line = .ok code ∧
      ∀ (s : Session) (w : Word), s.dictionary.get? ";" = some w → w.meaning = .primitive .define →
        ∃ word, word.eraseLines = (compound name effect body).eraseLines ∧
          (∀ depth, Action.exec (depth + 1) code s =
            .value () { s with dictionary := s.dictionary.define word }) ∧
          (s.dictionary.define word).get? name = some word ∧
          ∀ other, other ≠ name →
            (s.dictionary.define word).get? other = s.dictionary.get? other := by
  have hformed := Code.defining_formed hname hblank hquote (fun e he => (heffect e he).formed)
    hbody.formed 0 0 0 0
  have hparams : ∀ p ∈ (Code.defining 0 0 0 0 name effect body).parameters, p.Printable := by
    rw [Code.parameters_defining]
    cases effect with
    | none => simpa using hprint
    | some e => exact List.forall_mem_append.mpr ⟨hprint' e rfl, hprint⟩
  obtain ⟨code, hparse, herase⟩ := Code.parse_formed hformed hparams line
  rw [Code.pieces_defining] at hparse
  obtain ⟨l₁, l₂, l₃, l₄, body', hb, rfl⟩ := Code.eq_defining herase
  refine ⟨_, hparse, fun s w hw hm => ⟨compound name effect body', ?_, ?_, ?_, ?_⟩⟩
  · simp only [compound, eraseLines, Meaning.eraseLines, hb]
  · exact fun depth => Action.exec_defining depth l₁ l₂ l₃ l₄ name effect body' hw hm
  · simp [Dictionary.define, compound]
  · intro other ho
    simp [Dictionary.define, compound, ho]

/-- A word called like a bracket is defined again above another effect and another name. -/
theorem text_redefines_bracket :
    let e : Effect := .mk [.nested "q" (.mk [.plain "a"] [])] [.plain "\"n m\""]
    let body : Code := [.push 3 (.integer 7), .push 3 (.array [.boolean true, .string "]"]),
      .push 4 (.effect (.mk [.plain "p"] [])), .call 4 "drop"]
    let s : Session := { Session.start .standard (fun _ => none) .primitives .unlimited with
      stack := [.effect e, .symbol "x"] }
    (Effect.parse "( q: ( a ) -- \"n m\" )" = .ok e ∧
      Code.parse "[: [ 7 \x7b t \"]\" \x7d\n( p -- ) drop ] ; \"end:" 3 =
        .ok [.push 3 (.symbol "["), .push 3 (.quotation body), .call 4 ";",
          .push 4 (.symbol "\"end")]) ∧
    ∃ code, Code.parse (compound "[" (some e) body).text 1 = .ok code ∧
      ∃ word, word.eraseLines = (compound "[" (some e) body).eraseLines ∧
        Action.exec 1 code s = .value () { s with dictionary := s.dictionary.define word } := by
  intro e body s
  have heffect : Effect.parse "( q: ( a ) -- \"n m\" )" = .ok e :=
    Effect.parse_ok_iff_run.mpr ⟨_, _, rfl, rfl, rfl⟩
  have hcode : Code.parse "[: [ 7 \x7b t \"]\" \x7d\n( p -- ) drop ] ; \"end:" 3 =
      .ok [.push 3 (.symbol "["), .push 3 (.quotation body), .call 4 ";",
        .push 4 (.symbol "\"end")] := by
    rw [Code.parse_eq_run]
    rfl
  have hread : body.Read := .quotation hcode (by
    simp [Code.parts, Instruction.partsList, Instruction.parts, Value.parts])
  obtain ⟨code, hparse, hrun⟩ := @text_redefines "[" (some e) body hread
    (by simpa using Effect.Read.signature heffect) (by decide) (by decide) (by decide)
    (by simp [Text.isSeparator]) (by decide) 1
  obtain ⟨w, hw, hm⟩ : ∃ w, s.dictionary.get? ";" = some w ∧ w.meaning = .primitive .define :=
    ⟨_, rfl, rfl⟩
  obtain ⟨word, herase, hexec, -⟩ := hrun s w hw hm
  exact ⟨⟨heffect, hcode⟩, code, hparse, word, herase, hexec 0⟩

end Word

end Concatenative
