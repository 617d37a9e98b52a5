import Concatenative.Proofs.Continuation
import Concatenative.Proofs.Legibility
import Concatenative.Proofs.Stepping
set_option autoImplicit false

namespace Concatenative

def Token.ofText (text : String) : Token := ⟨.word, text, 0⟩

@[simp] theorem Token.text_ofText (text : String) : (Token.ofText text).text = text := rfl

@[simp] theorem Token.line_ofText (text : String) : (Token.ofText text).line = 0 := rfl

mutual

theorem Effect.run_pieces : (e : Effect) → (∀ p ∈ e.parameters, p.Legible) →
    (line : Nat) → (outer : List (EffectDraft × String)) → (rest : List Token) →
    (EffectReading.mk line .empty outer).run (e.pieces.tail.map .ofText ++ rest) =
      EffectReading.resume line e rest outer
  | .mk i o, h, line, outer, rest => by
    have hi : ∀ p ∈ Parameter.parametersList i, p.Legible := fun p hp =>
      h p (by simp [Effect.parameters, hp])
    have ho : ∀ p ∈ Parameter.parametersList o, p.Legible := fun p hp =>
      h p (by simp [Effect.parameters, hp])
    have hin := EffectDraft.settle_inputs i
    have hout := EffectDraft.settle_outputs i.reverse o
    simp only [Effect.pieces, List.cons_append, List.tail_cons, List.map_append, List.map_cons,
      List.map_nil, List.append_assoc, List.nil_append]
    rw [Parameter.run_piecesList i hi, EffectReading.run_divide _ (Token.text_ofText _)
      (EffectDraft.outputs_eq_none (by rw [hin])), hin, Parameter.run_piecesList o ho,
      EffectReading.run_close _ (Token.text_ofText _)]
    simp [EffectDraft.effect, hout]

theorem Parameter.run_pieces : (p : Parameter) → (∀ q ∈ p.parameters, q.Legible) →
    (r : EffectReading) → (rest : List Token) →
    r.run (p.pieces.map .ofText ++ rest) = { r with draft := r.draft.take p }.run rest
  | .plain name, h, r, rest => by
    obtain ⟨-, hm, hs⟩ := h (.plain name) (by simp [Parameter.parameters])
    simp only [Parameter.pieces, List.map_cons, List.map_nil, List.cons_append, List.nil_append]
    rw [EffectReading.run_name r (t := .ofText name) hm, Token.text_ofText, hs]
    rfl
  | .nested name effect, h, r, rest => by
    obtain ⟨hne, -⟩ := h (.nested name effect) (by simp [Parameter.parameters])
    have he : ∀ q ∈ effect.parameters, q.Legible := fun q hq =>
      h q (by simp [Parameter.parameters, hq])
    have hp : effect.pieces = "(" :: effect.pieces.tail := by
      cases effect
      simp [Effect.pieces]
    simp only [Parameter.pieces, List.map_cons, List.cons_append]
    rw [EffectReading.run_name r (t := .ofText (name ++ ":")) (Mark.ofText_colon name),
      Token.text_ofText, Atom.symbol?_colon hne, Option.getD_some, hp, List.map_cons,
      List.cons_append, EffectReading.run_nest _ (Token.text_ofText _) rfl,
      Effect.run_pieces effect he]
    simp only [EffectReading.resume, EffectDraft.take]
    rw [← EffectDraft.settle_pending r.draft]

theorem Parameter.run_piecesList : (ps : List Parameter) →
    (∀ q ∈ Parameter.parametersList ps, q.Legible) → (r : EffectReading) → (rest : List Token) →
    r.run ((Parameter.piecesList ps).map .ofText ++ rest) =
      { r with draft := ps.foldl EffectDraft.take r.draft }.run rest
  | [], _, _, _ => rfl
  | p :: ps, h, r, rest => by
    simp only [Parameter.piecesList, List.map_append, List.append_assoc]
    rw [Parameter.run_pieces p (fun q hq => h q (by simp [Parameter.parametersList, hq])),
      Parameter.run_piecesList ps (fun q hq => h q (by simp [Parameter.parametersList, hq]))]
    rfl

end

theorem Instruction.add_eraseLines (i : Instruction) (r : Reading) :
    r.add i.eraseLines.line i.eraseLines.atom = r.add 0 i.eraseLines.atom := by
  cases i <;> rfl

/-- An instruction that is read again from its written form, whatever is open there. -/
def Instruction.Readable (i : Instruction) : Prop :=
  ∀ (r : Reading) (rest : List Token), r.effect = none →
    r.run (i.pieces.map .ofText ++ rest) = (r.add 0 i.eraseLines.atom).run rest

theorem Instruction.run_readable {is : List Instruction} (h : ∀ i ∈ is, i.Readable) {r : Reading}
    (hr : r.effect = none) (rest : List Token) :
    r.run ((Instruction.piecesList is).map .ofText ++ rest) =
      (r.addAll (is.map Instruction.eraseLines)).run rest := by
  induction is generalizing r with
  | nil => rfl
  | cons i is ih =>
    simp only [Instruction.piecesList, List.map_append, List.append_assoc]
    rw [h i (by simp) r _ hr, ih (fun j hj => h j (by simp [hj])) (by simpa using hr),
      ← Instruction.add_eraseLines]
    rfl

mutual

theorem Value.run_pieces : (v : Value) → v.Formed Parameter.Legible → v.isBoolean = false →
    (r : Reading) → r.effect = none → (rest : List Token) →
    r.run (v.pieces.map .ofText ++ rest) = (r.add 0 (.literal v.eraseLines)).run rest
  | .integer n, _, _, r, hr, rest => by
    have hm := Mark.ofText_integer (Text.Decimal.integer?_text n)
    simp only [Value.pieces, List.map_cons, List.map_nil, List.cons_append, List.nil_append]
    rw [Reading.run_atom hr (t := .ofText (Text.Decimal.text n)) (.inl hm), Token.text_ofText,
      Atom.ofText_integer]
    rfl
  | .boolean _, _, hb, _, _, _ => by simp [Value.isBoolean] at hb
  | .string s, _, _, r, hr, rest => by
    have hm : Mark.ofText ("\"" ++ s ++ "\"") = .none :=
      Mark.ofText_eq_none (c := '"') (by simp) (by decide)
    simp only [Value.pieces, List.map_cons, List.map_nil, List.cons_append, List.nil_append]
    rw [Reading.run_atom hr (t := .ofText _) (.inl hm), Token.text_ofText, Atom.ofText_string]
    rfl
  | .symbol name, h, _, r, hr, rest => by
    simp only [Value.pieces, List.map_cons, List.map_nil, List.cons_append, List.nil_append]
    rw [Reading.run_atom hr (t := .ofText _) (.inl (Mark.ofText_colon name)), Token.text_ofText,
      Atom.ofText_symbol h.1]
    rfl
  | .array items, h, _, r, hr, rest => by
    obtain ⟨code, frames, effect⟩ := r
    obtain rfl : effect = none := hr
    simp only [Value.pieces, List.map_cons, List.map_append, List.map_nil, List.cons_append,
      List.append_assoc, List.nil_append]
    rw [Reading.run_enter rfl (t := .ofText "\x7b") (b := .curly) (by decide)]
    simp only [Reading.enter]
    rw [Value.run_piecesList items h,
      Reading.run_leave rfl (t := .ofText "\x7d") (b := .curly) (by decide) rfl]
    simp [Value.eraseLines, Value.mapLines, Value.mapLinesList_eq_map]
    rfl
  | .quotation body, h, _, r, hr, rest => by
    obtain ⟨code, frames, effect⟩ := r
    obtain rfl : effect = none := hr
    simp only [Value.pieces, List.map_cons, List.map_append, List.map_nil, List.cons_append,
      List.append_assoc, List.nil_append]
    rw [Reading.run_enter rfl (t := .ofText "[") (b := .square) (by decide),
      Instruction.run_readable (Instruction.readable_list body h) (by simp [Reading.enter])]
    simp only [Reading.enter]
    rw [Reading.addAll_quotation,
      Reading.run_leave rfl (t := .ofText "]") (b := .square) (by decide) rfl]
    simp [Value.eraseLines, Value.mapLines, Instruction.mapLinesList_eq_map]
    rfl
  | .effect e, h, _, r, hr, rest => by
    obtain ⟨code, frames, effect⟩ := r
    obtain rfl : effect = none := hr
    have hp : e.pieces = "(" :: e.pieces.tail := by
      cases e
      simp [Effect.pieces]
    rw [Value.pieces, hp, List.map_cons, List.cons_append,
      Reading.run_enter rfl (t := .ofText "(") (b := .round) (by decide)]
    exact Reading.run_effect (Effect.run_pieces e h 0 [] rest) code frames
  | .failure _, h, _, _, _, _ => h.elim

theorem Value.run_piecesList : (vs : List Value) → Value.FormedList Parameter.Legible vs →
    (code : Code) → (l : Nat) → (items : List Value) → (frames : List Frame) →
    (rest : List Token) →
    (Reading.mk code (.array l items :: frames) none).run
        ((Value.piecesList vs).map .ofText ++ rest) =
      (Reading.mk code (.array l ((vs.map Value.eraseLines).reverse ++ items) :: frames)
        none).run rest
  | [], _, _, _, _, _, _ => rfl
  | v :: vs, h, code, l, items, frames, rest => by
    -- A truth value is a word that only an array takes for data.
    have hv : ∀ rest, (Reading.mk code (.array l items :: frames) none).run
        (v.pieces.map .ofText ++ rest) =
          (Reading.mk code (.array l (v.eraseLines :: items) :: frames) none).run rest := by
      intro rest
      cases hb : v.isBoolean with
      | false => exact Value.run_pieces v h.1 hb _ rfl rest
      | true =>
        cases v with
        | boolean b =>
          cases b <;> exact Reading.run_atom rfl (.inl (by decide)) rest
        | _ => simp [Value.isBoolean] at hb
    simp only [Value.piecesList, List.map_append, List.append_assoc]
    rw [hv, Value.run_piecesList vs h.2]
    simp

theorem Instruction.readable : (i : Instruction) → i.Formed Parameter.Legible → i.Readable
  | .push _ v, h => fun r rest hr => Value.run_pieces v h.2 h.1 r hr rest
  | .call _ name, h => fun r rest hr => by
    simp only [Instruction.pieces, List.map_cons, List.map_nil, List.cons_append, List.nil_append]
    rw [Reading.run_atom hr (t := .ofText name) h.mark, Token.text_ofText, h.word]
    rfl

theorem Instruction.readable_list : (is : List Instruction) →
    Instruction.FormedList Parameter.Legible is → ∀ i ∈ is, i.Readable
  | [], _ => by simp
  | i :: is, h =>
    List.forall_mem_cons.mpr ⟨Instruction.readable i h.1, Instruction.readable_list is h.2⟩

end

theorem Lexeme.whole_mark {text : String} (h : text ∈ Mark.texts) : Whole text.toList := by
  simp only [Mark.texts, List.mem_cons, List.not_mem_nil, or_false] at h
  rcases h with rfl | rfl | rfl | rfl | rfl | rfl | rfl <;>
    exact .inl (by decide)

section
open Lexeme

mutual

theorem Effect.pieces_whole : (e : Effect) → (∀ p ∈ e.parameters, p.Legible) →
    ∀ w ∈ e.pieces, Whole w.toList
  | .mk i o, h => by
    have hi := Parameter.piecesList_whole i fun p hp => h p (by simp [Effect.parameters, hp])
    have ho := Parameter.piecesList_whole o fun p hp => h p (by simp [Effect.parameters, hp])
    simp only [Effect.pieces, List.cons_append, List.forall_mem_cons, List.forall_mem_append]
    exact ⟨whole_mark (by decide), ⟨hi, whole_mark (by decide), ho⟩,
      whole_mark (by decide), by simp⟩

theorem Parameter.pieces_whole : (p : Parameter) → (∀ q ∈ p.parameters, q.Legible) →
    ∀ w ∈ p.pieces, Whole w.toList
  | .plain name, h => by
    obtain ⟨hw, -, -⟩ := h (.plain name) (by simp [Parameter.parameters])
    simpa [Parameter.pieces] using hw
  | .nested name effect, h => by
    obtain ⟨-, hb⟩ := h (.nested name effect) (by simp [Parameter.parameters])
    have he := Effect.pieces_whole effect fun q hq => h q (by simp [Parameter.parameters, hq])
    simp only [Parameter.pieces, List.forall_mem_cons]
    exact ⟨.inl hb, he⟩

theorem Parameter.piecesList_whole : (ps : List Parameter) →
    (∀ q ∈ Parameter.parametersList ps, q.Legible) →
    ∀ w ∈ Parameter.piecesList ps, Whole w.toList
  | [], _ => by simp [Parameter.piecesList]
  | p :: ps, h => by
    have hp := Parameter.pieces_whole p fun q hq => h q (by simp [Parameter.parametersList, hq])
    have hps := Parameter.piecesList_whole ps fun q hq =>
      h q (by simp [Parameter.parametersList, hq])
    simp only [Parameter.piecesList, List.forall_mem_append]
    exact ⟨hp, hps⟩

end

mutual

theorem Value.pieces_whole : (v : Value) → v.Formed Parameter.Legible →
    ∀ w ∈ v.pieces, Whole w.toList
  | .integer n, _ => by
    simpa [Value.pieces] using .inl (Text.Decimal.text_bare n)
  | .boolean b, _ => by
    cases b <;> simpa [Value.pieces] using .inl (by decide)
  | .string s, h => by
    simp only [Value.pieces, List.mem_singleton, forall_eq]
    exact .inr ⟨s.toList, h, by simp⟩
  | .symbol name, h => by
    simp only [Value.pieces, List.mem_singleton, forall_eq]
    exact .inl h.2
  | .array items, h => by
    have hi := Value.piecesList_whole items h
    simp only [Value.pieces, List.cons_append, List.forall_mem_cons, List.forall_mem_append]
    exact ⟨whole_mark (by decide), hi, whole_mark (by decide), by simp⟩
  | .quotation body, h => by
    have hb := Instruction.piecesList_whole body h
    simp only [Value.pieces, List.cons_append, List.forall_mem_cons, List.forall_mem_append]
    exact ⟨whole_mark (by decide), hb, whole_mark (by decide), by simp⟩
  | .effect e, h => Effect.pieces_whole e h
  | .failure _, h => h.elim

theorem Value.piecesList_whole : (vs : List Value) → Value.FormedList Parameter.Legible vs →
    ∀ w ∈ Value.piecesList vs, Whole w.toList
  | [], _ => by simp [Value.piecesList]
  | v :: vs, h => by
    have hv := Value.pieces_whole v h.1
    have hvs := Value.piecesList_whole vs h.2
    simp only [Value.piecesList, List.forall_mem_append]
    exact ⟨hv, hvs⟩

theorem Instruction.pieces_whole : (i : Instruction) → i.Formed Parameter.Legible →
    ∀ w ∈ i.pieces, Whole w.toList
  | .push _ v, h => Value.pieces_whole v h.2
  | .call _ name, h => by
    simp only [Instruction.pieces, List.mem_singleton, forall_eq]
    exact .inl h.bare

theorem Instruction.piecesList_whole : (is : List Instruction) →
    Instruction.FormedList Parameter.Legible is →
    ∀ w ∈ Instruction.piecesList is, Whole w.toList
  | [], _ => by simp [Instruction.piecesList]
  | i :: is, h => by
    have hi := Instruction.pieces_whole i h.1
    have his := Instruction.piecesList_whole is h.2
    simp only [Instruction.piecesList, List.forall_mem_append]
    exact ⟨hi, his⟩

end

end

theorem Instruction.pieces_ne_nil (i : Instruction) : i.pieces ≠ [] := by
  cases i with
  | call line name => simp [pieces]
  | push line v =>
    cases v with
    | effect e =>
      cases e
      simp [pieces, Value.pieces, Effect.pieces]
    | _ => simp [pieces, Value.pieces]

theorem Instruction.intercalate_text (is : List Instruction) :
    " ".intercalate (is.map Instruction.text) = " ".intercalate (Instruction.piecesList is) := by
  induction is with
  | nil => rfl
  | cons i is ih =>
    cases is with
    | nil => simp [Instruction.text, Instruction.piecesList]
    | cons j is =>
      have hj : Instruction.piecesList (j :: is) ≠ [] := by
        simp [Instruction.piecesList, j.pieces_ne_nil]
      have hi : Instruction.piecesList (i :: j :: is) =
          i.pieces ++ Instruction.piecesList (j :: is) := by rw [Instruction.piecesList]
      rw [List.map_cons, String.intercalate_cons_of_ne_nil (by simp), ih, hi,
        String.intercalate_append_of_ne_nil i.pieces_ne_nil hj]
      rfl

/-- Code from words that are all whole is read again, and so are its words. -/
theorem Code.readable_of_formed {code : Code} (h : ∀ i ∈ code, i.Formed Parameter.Named)
    (hp : ∀ p ∈ code.parameters, p.Printable) :
    (∀ i ∈ code, i.Readable) ∧
      ∀ w ∈ Instruction.piecesList code, Lexeme.Whole w.toList := by
  have hl : Instruction.FormedList Parameter.Legible code :=
    Instruction.FormedList.imp code ((Instruction.formedList_iff _ code).mpr h)
      fun p hm hn => hn.legible (hp p hm)
  exact ⟨Instruction.readable_list code hl, Instruction.piecesList_whole code hl⟩

/-- The last word of a text may be an unclosed string. It is taken for a symbol or for a call. -/
theorem Atom.ofText_unclosed {text : String} (h : Lexeme.Unclosed text.toList) :
    (∃ name, text = name ++ ":" ∧ name.toList.head? = some '"' ∧
      Atom.ofText text = .literal (.symbol name)) ∨ Atom.ofText text = .word text := by
  obtain ⟨body, hbody, ht⟩ := h.eq_cons
  rcases Atom.ofText_cases text with ⟨n, hn, -⟩ | ⟨s, hs, -⟩ | ⟨name, rfl, hne, ha⟩ | ha
  · rcases Text.Decimal.of_integer? hn '"' (by simp [ht]) with hd | hd
    · exact absurd hd (by decide)
    · exact absurd hd (by decide)
  · rw [ht, List.cons.injEq] at hs
    simp [hs.2] at hbody
  · refine .inl ⟨name, rfl, ?_, ha⟩
    have hhead := h.1
    rwa [String.toList_append, List.head?_append, Option.or_of_isSome (by simpa using hne)] at hhead
  · exact .inr ha

theorem Instruction.readable_unclosed {text : String} (h : Lexeme.Unclosed text.toList)
    (line : Nat) :
    ((Atom.ofText text).instruction line).Readable ∧
      ((Atom.ofText text).instruction line).pieces = [text] := by
  have hm : Mark.ofText text = .none :=
    Mark.ofText_eq_none (c := '"') (List.mem_of_mem_head? h.1) (by decide)
  have hp : ((Atom.ofText text).instruction line).pieces = [text] := by
    rcases Atom.ofText_unclosed h with ⟨name, rfl, -, ha⟩ | ha
    · rw [ha]
      rfl
    · rw [ha]
      rfl
  refine ⟨fun r rest hr => ?_, hp⟩
  have ha : ((Atom.ofText text).instruction line).eraseLines.atom = Atom.ofText text := by
    have he := Atom.mapLines_ofText (fun _ => 0) text
    cases hc : Atom.ofText text with
    | literal v =>
      rw [hc] at he
      exact he
    | word name => rfl
  rw [hp, ha, List.map_cons, List.map_nil, List.cons_append, List.nil_append,
    Reading.run_atom hr (t := .ofText text) (.inl hm), Token.text_ofText, Token.line_ofText]

theorem Reading.of_step_unclosed {r : Reading} {t : Token} {code : Code}
    (hu : Lexeme.Unclosed t.text.toList) (h : r.step t = .ok (start.onto code.reverse)) :
    code = r.code.reverse ++ [(Atom.ofText t.text).instruction t.line] := by
  have hm : Mark.ofText t.text = .none :=
    Mark.ofText_eq_none (c := '"') (List.mem_of_mem_head? hu.1) (by decide)
  obtain ⟨c, frames, effect⟩ := r
  cases effect with
  | some e => simp [step, EffectReading.step, hm, EffectReading.name, onto, start] at h
  | none =>
    cases frames with
    | cons frame frames => cases frame <;> simp [step, hm, add, onto, start] at h
    | nil =>
      have hc : (Atom.ofText t.text).instruction t.line :: c = code.reverse := by
        simpa [step, hm, add, onto, start] using h
      have hr := congrArg List.reverse hc
      rw [List.reverse_reverse] at hr
      rw [← hr]
      simp

theorem Code.formed_of_closed {source : String} {line : Nat} {code : Code}
    (h : Code.parse source line = .ok code) (hs : ¬ Token.EndsInString source) :
    ∀ i ∈ code, i.Formed Parameter.Named := by
  rw [Token.endsInString_iff source line, Bool.not_eq_true] at hs
  have hf := Reading.formed_start.run (fun t => Token.words_whole hs) (Code.parse_eq_ok h)
  exact fun i hi => hf.code i (by simpa [Reading.onto, Reading.start] using hi)

/-- Code that is read from a text is well formed but for its end, which may be an unclosed
string. -/
theorem Code.formed_of_parse {source : String} {line : Nat} {code : Code}
    (h : Code.parse source line = .ok code) :
    (∀ i ∈ code, i.Formed Parameter.Named) ∨
    ∃ before text l, code = before ++ [(Atom.ofText text).instruction l] ∧
      Lexeme.Unclosed text.toList ∧ ∀ i ∈ before, i.Formed Parameter.Named := by
  by_cases hs : Token.EndsInString source
  · rw [Token.endsInString_iff source line] at hs
    obtain ⟨t, ht, hu⟩ := Token.words_unclosed hs
    have hr := Code.parse_eq_ok h
    rw [ht, Reading.run_append] at hr
    cases hc : Reading.start.run (Token.completed source line) with
    | error e =>
      rw [hc] at hr
      cases hr
    | ok r =>
      have hf := Reading.formed_start.run (fun t => Token.completed_whole) hc
      have hstep : r.step t = .ok (Reading.start.onto code.reverse) := by
        rw [hc] at hr
        cases hs : r.step t with
        | error e => simp [Except.bind, Reading.run_cons, hs] at hr
        | ok r' => simpa [Except.bind, Reading.run_cons, Reading.run, hs] using hr
      exact .inr ⟨r.code.reverse, t.text, t.line, Reading.of_step_unclosed hu hstep, hu,
        fun i hi => hf.code i (by simpa using hi)⟩
  · exact .inl (Code.formed_of_closed h hs)

theorem Code.pushed_of_parse {source : String} {line l : Nat} {code : Code} {v : Value}
    (h : Code.parse source line = .ok code) (hv : .push l v ∈ code) :
    v.Formed Parameter.Named ∨ ∃ name, v = .symbol name ∧ name.toList.head? = some '"' := by
  rcases Code.formed_of_parse h with hform | ⟨before, text, k, rfl, hu, hform⟩
  · exact .inl (hform _ hv).2
  · rcases List.mem_append.mp hv with hv | hv
    · exact .inl (hform _ hv).2
    · rcases Atom.ofText_unclosed hu with ⟨name, -, hq, ha⟩ | ha
      · rw [ha] at hv
        simp only [Atom.instruction, List.mem_singleton, Instruction.push.injEq] at hv
        exact .inr ⟨name, hv.2, hq⟩
      · rw [ha] at hv
        simp [Atom.instruction] at hv

theorem Code.readable_of_parse {source : String} {line : Nat} {code : Code}
    (h : Code.parse source line = .ok code) (hp : ∀ p ∈ code.parameters, p.Printable) :
    (∀ i ∈ code, i.Readable) ∧ Lexeme.Row (Instruction.piecesList code) := by
  rcases Code.formed_of_parse h with hform | ⟨before, text, l, rfl, hu, hform⟩
  · obtain ⟨hread, hwhole⟩ := Code.readable_of_formed hform hp
    exact ⟨hread, Lexeme.row_of_whole hwhole⟩
  · obtain ⟨hlast, hpieces⟩ := Instruction.readable_unclosed hu l
    have hprint : ∀ p ∈ Code.parameters before, p.Printable := fun p hm => hp p (by
      simp only [Code.parameters, Instruction.parametersList_eq_flatMap] at hm ⊢
      simp [hm])
    obtain ⟨hread, hwhole⟩ := Code.readable_of_formed hform hprint
    constructor
    · intro i hi
      rcases List.mem_append.mp hi with hi | hi
      · exact hread i hi
      · rw [List.mem_singleton.mp hi]
        exact hlast
    · rw [Instruction.piecesList_eq_flatMap] at hwhole ⊢
      rw [List.flatMap_append, List.flatMap_singleton, hpieces]
      exact Lexeme.Row.append hwhole (.inr hu)

theorem Token.words_erased (source : String) (line : Nat) :
    (words source line).map (mapLine fun _ => 0) =
      ((words source line).map text).map ofText := by
  rw [List.map_map]
  apply List.map_congr_left
  intro t ht
  have hk : t.kind = .word := by
    simp only [words, List.mem_filter, isWord, beq_iff_eq] at ht
    exact ht.2
  obtain ⟨kind, text, l⟩ := t
  simp [mapLine, ofText, show kind = .word from hk]

theorem Code.parse_pieces {code : Code} (hread : ∀ i ∈ code, i.Readable)
    (hrow : Lexeme.Row (Instruction.piecesList code)) (line : Nat) :
    ∃ again, Code.parse (" ".intercalate (Instruction.piecesList code)) line = .ok again ∧
      again.eraseLines = code.eraseLines := by
  have herase := Parser.program_mapLines (fun _ => 0)
    (Token.words (" ".intercalate (Instruction.piecesList code)) line)
  have hrun : Reading.start.run ((Instruction.piecesList code).map .ofText) =
      .ok (Reading.start.onto code.eraseLines.reverse) := by
    have hr := Instruction.run_readable hread (r := .start) rfl []
    rw [List.append_nil, Reading.start, Reading.addAll_code] at hr
    rw [Reading.start, hr]
    simp [Reading.onto, Code.eraseLines, Code.mapLines, Reading.run]
    rfl
  rw [Token.words_erased, Token.words_intercalate hrow, Parser.program_eq_run, hrun] at herase
  change (Reading.start.onto code.eraseLines.reverse).finish = (Code.parse _ line).map _ at herase
  rw [Reading.finish_onto, List.reverse_reverse] at herase
  cases hagain : Code.parse (" ".intercalate (Instruction.piecesList code)) line with
  | error e =>
    rw [hagain] at herase
    cases herase
  | ok again =>
    rw [hagain] at herase
    have he : code.eraseLines ++ [] = again.eraseLines := Except.ok.inj herase
    exact ⟨again, rfl, by rw [← he, List.append_nil]⟩

theorem Code.parse_formed {code : Code} (h : ∀ i ∈ code, i.Formed Parameter.Named)
    (hp : ∀ p ∈ code.parameters, p.Printable) (line : Nat) :
    ∃ again, Code.parse (" ".intercalate (Instruction.piecesList code)) line = .ok again ∧
      again.eraseLines = code.eraseLines := by
  obtain ⟨hread, hwhole⟩ := Code.readable_of_formed h hp
  exact Code.parse_pieces hread (Lexeme.row_of_whole hwhole) line

/-- The instructions of any text, written with a space between each two of them, are a text that is
read as the same code, line numbers apart, provided that the names in effects can be written. -/
theorem Code.parse_written {source : String} {code : Code} (h : Code.parse source 1 = .ok code)
    (hp : ∀ p ∈ code.parameters, p.Printable) :
    ∃ again, Code.parse (" ".intercalate (code.map Instruction.text)) 1 = .ok again ∧
      again.eraseLines = code.eraseLines := by
  obtain ⟨hread, hrow⟩ := Code.readable_of_parse h hp
  rw [Instruction.intercalate_text]
  exact Code.parse_pieces hread hrow 1

theorem Code.parse_written_mixed :
    let code : Code := [
      .push 1 (.array [.integer (-7), .symbol "foo", .boolean true, .string "a\nb"]),
      .push 3 (.quotation [.call 3 "x", .push 4 (.effect
        (.mk [.nested "q" (.mk [.plain "a"] [])] [.plain "\"n m\""]))]),
      .push 4 (.symbol "\"end")]
    Code.parse "\x7b -07 foo t \"a\nb\" \x7d\n[ x \\ why\n( q: ( a ) -- \"n m\" ) ] \"end:" 1 =
        .ok code ∧
      (∀ p ∈ code.parameters, p.Printable) ∧
      ∃ again, Code.parse (" ".intercalate (code.map Instruction.text)) 1 = .ok again ∧
        again.eraseLines = code.eraseLines := by
  intro code
  have h : Code.parse "\x7b -07 foo t \"a\nb\" \x7d\n[ x \\ why\n( q: ( a ) -- \"n m\" ) ] \"end:" 1 =
      .ok code := by
    rw [Code.parse_eq_run]
    rfl
  have hp : ∀ p ∈ code.parameters, p.Printable := by decide
  exact ⟨h, hp, Code.parse_written h hp⟩

end Concatenative
