import Concatenative.Cursor
import Concatenative.Proofs.Layout
set_option autoImplicit false

namespace Concatenative
open Text

namespace Cursor

/-- To take the characters `cs` leads from one place in a text to another. -/
structure Passes (c : Cursor) (cs : List Char) (after : Cursor) : Prop where
  rest : c.rest = cs ++ after.rest
  line : after.line = c.line + cs.count '\n'

namespace Passes
variable {c after last : Cursor} {cs ds : List Char} {x : Char}

theorem refl (c : Cursor) : c.Passes [] c := ⟨rfl, rfl⟩

theorem trans (h : c.Passes cs after) (h' : after.Passes ds last) : c.Passes (cs ++ ds) last where
  rest := by rw [h.rest, h'.rest, List.append_assoc]
  line := by rw [h'.line, h.line, List.count_append, Nat.add_assoc]

theorem next (h : c.next = (some x, after)) : c.Passes [x] after := by
  obtain ⟨rest, line⟩ := c
  cases rest with
  | nil => cases h
  | cons y rest =>
    cases h
    refine ⟨rfl, ?_⟩
    by_cases hx : x = '\n'
    · simp [lineAfter, hx]
    · simp [lineAfter, hx]

theorem peek (h : c.peek = some x) : c.Passes [x] c.next.2 := .next (next_of_peek h)

theorem shorter (h : c.Passes cs after) (hne : cs ≠ []) :
    after.rest.length < c.rest.length := by
  have hlen := List.length_pos_iff.mpr hne
  rw [h.rest, List.length_append]
  omega

end Passes

def takeUntil (stop : Char → Bool) (c : Cursor) : List Char × Cursor :=
  match h : c.peek with
  | none => ([], c)
  | some x =>
    if stop x then ([], c)
    else
      have := (Passes.peek h).shorter (List.cons_ne_nil x [])
      let (taken, after) := c.next.2.takeUntil stop
      (x :: taken, after)
termination_by c.rest.length

theorem takeUntil_spec (stop : Char → Bool) (c : Cursor) :
    c.Passes (c.takeUntil stop).1 (c.takeUntil stop).2 ∧
    (∀ x ∈ (c.takeUntil stop).1, stop x = false) ∧
    ∀ x ∈ (c.takeUntil stop).2.peek, stop x = true := by
  fun_induction takeUntil stop c with
  | case1 c h => exact ⟨.refl c, by simp, by simp [h]⟩
  | case2 c x h hs => exact ⟨.refl c, by simp, by simpa [h] using hs⟩
  | case3 c x h hs hlt taken after heq ih =>
    rw [heq] at ih
    obtain ⟨hp, hbefore, hafter⟩ := ih
    exact ⟨(Passes.peek h).trans hp, List.forall_mem_cons.mpr ⟨by simpa using hs, hbefore⟩, hafter⟩

def closeString (c : Cursor) : List Char × Cursor :=
  match h : c.next with
  | (none, after) => ([], after)
  | (some x, after) =>
    if x = '"' then ([x], after)
    else
      have := (Passes.next h).shorter (List.cons_ne_nil x [])
      let (taken, last) := after.closeString
      (x :: taken, last)
termination_by c.rest.length

theorem closeString_spec (c : Cursor) :
    c.Passes c.closeString.1 c.closeString.2 ∧
    (('"' ∉ c.closeString.1 ∧ c.closeString.2.rest = []) ∨
      ∃ body, '"' ∉ body ∧ c.closeString.1 = body ++ ['"']) := by
  fun_induction closeString c with
  | case1 c after h =>
    obtain ⟨rest, line⟩ := c
    cases rest with
    | nil =>
      cases h
      exact ⟨.refl _, .inl ⟨by simp, rfl⟩⟩
    | cons y rest => cases h
  | case2 c after h => exact ⟨.next h, .inr ⟨[], by simp, rfl⟩⟩
  | case3 c x after h hx hlt taken last heq ih =>
    rw [heq] at ih
    obtain ⟨hp, hclosed⟩ := ih
    refine ⟨(Passes.next h).trans hp, ?_⟩
    rcases hclosed with ⟨hno, hlast⟩ | ⟨body, hno, htaken⟩
    · exact .inl ⟨by simpa [Ne.symm hx] using hno, hlast⟩
    · exact .inr ⟨x :: body, by simpa [Ne.symm hx] using hno, congrArg (x :: ·) htaken⟩

def takeString (c : Cursor) : List Char × Cursor :=
  match c.next with
  | (none, after) => ([], after)
  | (some quote, after) =>
    let (body, last) := after.closeString
    (quote :: body, last)

theorem takeString_spec {c : Cursor} (h : c.peek = some '"') :
    c.Passes c.takeString.1 c.takeString.2 ∧
    ((Lexeme.Unclosed c.takeString.1 ∧ c.takeString.2.rest = []) ∨
      Lexeme.Quoted c.takeString.1) := by
  obtain ⟨hp, hclosed⟩ := closeString_spec c.next.2
  rw [takeString, next_of_peek h]
  refine ⟨(Passes.peek h).trans hp, ?_⟩
  rcases hclosed with ⟨hno, hlast⟩ | ⟨body, hno, hbody⟩
  · exact .inl ⟨(Lexeme.unclosed_cons _).mpr hno, hlast⟩
  · exact .inr ⟨body, hno, congrArg ('"' :: ·) hbody⟩

end Cursor

namespace Lexer
open Cursor Lexeme Token

/-- Takes the blanks before the next token. Where newlines are kept, they are tokens. -/
def skip (keep : Bool) (c : Cursor) : List Char × Cursor :=
  c.takeUntil fun x => !isSeparator x || (x = '\n' && keep)

def isCommentStart (text : List Char) (after : Cursor) : Bool :=
  text = ['\\'] && after.peek.all isSeparator

def tokenAt (start : Cursor) (x : Char) : Token × Cursor :=
  if x = '\n' then (⟨.newline, "\n", start.line⟩, start.next.2)
  else if x = '"' then
    let (text, after) := start.takeString
    (⟨.word, String.ofList text, start.line⟩, after)
  else
    let (text, after) := start.takeUntil isSeparator
    if isCommentStart text after then
      let (rest, last) := after.takeUntil (· = '\n')
      (⟨.comment, String.ofList (text ++ rest), start.line⟩, last)
    else (⟨.word, String.ofList text, start.line⟩, after)

def next (keep : Bool) (c : Cursor) : Option (Token × Cursor) :=
  let start := (skip keep c).2
  start.peek.map (tokenAt start)

theorem skip_spec (keep : Bool) (c : Cursor) :
    c.Passes (skip keep c).1 (skip keep c).2 ∧ Gap keep (skip keep c).1 ∧
    ∀ x ∈ (skip keep c).2.peek, isSeparator x = true → x = '\n' ∧ keep = true := by
  obtain ⟨hp, hbefore, hafter⟩ :=
    takeUntil_spec (fun x => !isSeparator x || (x = '\n' && keep)) c
  refine ⟨hp, fun x hx => ?_, fun x hx hs => ?_⟩
  · have hskip := hbefore x hx
    simp only [Bool.or_eq_false_iff, Bool.not_eq_eq_eq_not, Bool.not_false] at hskip
    exact ⟨hskip.1, fun hk hn => by simp [hk, hn] at hskip⟩
  · simpa [hs] using hafter x hx

/-- A token of one of the forms stands at a place in a text, with another place behind it. -/
structure Pulled (keep : Bool) (start : Cursor) (t : Token) (after : Cursor) : Prop where
  line : t.line = start.line
  passes : start.Passes t.text.toList after
  shaped : t.Shaped keep after.rest

theorem pulled_string {start : Cursor} (h : start.peek = some '"') (keep : Bool) :
    Pulled keep start (tokenAt start '"').1 (tokenAt start '"').2 := by
  obtain ⟨hp, hclosed⟩ := takeString_spec h
  have hp' : start.Passes (String.ofList start.takeString.1).toList start.takeString.2 := by
    rwa [String.toList_ofList]
  refine ⟨rfl, hp', ?_⟩
  rcases hclosed with ⟨hopen, hend⟩ | hquoted
  · show Shaped keep _ start.takeString.2.rest
    rw [hend]
    exact .unclosed (by rwa [String.toList_ofList])
  · exact .quoted (by rwa [String.toList_ofList])

theorem comment_spec {after : Cursor} (h : ∀ x ∈ after.peek, isSeparator x = true) :
    let taken := after.takeUntil (· = '\n')
    after.Passes taken.1 taken.2 ∧ Comment ('\\' :: taken.1) ∧ ∀ x ∈ taken.2.peek, x = '\n' := by
  intro taken
  obtain ⟨hp, hbefore, hlast⟩ := takeUntil_spec (· = '\n') after
  refine ⟨hp, ⟨taken.1, rfl, fun hn => ?_, fun x hx => ?_⟩, fun x hx => by simpa using hlast x hx⟩
  · simpa using hbefore '\n' hn
  · refine h x ?_
    rw [peek, hp.rest, List.head?_append, Option.mem_def.mp hx]
    rfl

theorem pulled_word {start : Cursor} {x : Char} (h : start.peek = some x)
    (hx : isSeparator x = false) (hq : x ≠ '"') (keep : Bool) :
    Pulled keep start (tokenAt start x).1 (tokenAt start x).2 := by
  have hn : x ≠ '\n' := by
    rintro rfl
    cases hx
  obtain ⟨hp, hbefore, hafter⟩ := takeUntil_spec isSeparator start
  simp only [tokenAt, hn, hq, if_false]
  generalize start.takeUntil isSeparator = taken at hp hbefore hafter
  obtain ⟨text, after⟩ := taken
  have hhead : (text ++ after.rest).head? = some x := by rw [← hp.rest]; exact h
  have hne : text ≠ [] := by
    rintro rfl
    rw [hafter x hhead] at hx
    cases hx
  split
  · next hc =>
    obtain ⟨rfl, -⟩ : text = ['\\'] ∧ after.peek.all isSeparator = true := by
      simpa [isCommentStart] using hc
    obtain ⟨hp', hcomment, hlast⟩ := comment_spec hafter
    refine ⟨rfl, ?_, .comment ?_ hlast⟩
    · rw [String.toList_ofList]
      exact hp.trans hp'
    · rwa [String.toList_ofList]
  · next hc =>
    have hall : after.peek.all isSeparator = true := (Option.all_eq_true _ _).mpr hafter
    have hlone : text ≠ ['\\'] := by simpa [isCommentStart, hall] using hc
    refine ⟨rfl, by rwa [String.toList_ofList], .bare ?_ hafter⟩
    rw [String.toList_ofList]
    rw [List.head?_append, Option.or_of_isSome (by simpa using hne)] at hhead
    exact ⟨hne, by simpa [hhead] using hq, hlone, hbefore⟩

theorem pulled_tokenAt {keep : Bool} {start : Cursor} {x : Char} (h : start.peek = some x)
    (hx : isSeparator x = true → x = '\n' ∧ keep = true) :
    Pulled keep start (tokenAt start x).1 (tokenAt start x).2 := by
  by_cases hs : isSeparator x = true
  · obtain ⟨rfl, hk⟩ := hx hs
    have hp : start.Passes "\n".toList start.next.2 := by simpa using Passes.peek h
    exact ⟨rfl, hp, .newline hk⟩
  · rw [Bool.not_eq_true] at hs
    by_cases hq : x = '"'
    · subst hq
      exact pulled_string h keep
    · exact pulled_word h hs hq keep

theorem gap_of_next {keep : Bool} {c : Cursor} (h : next keep c = none) : Gap keep c.rest := by
  obtain ⟨hp, hgap, -⟩ := skip_spec keep c
  have hend : (skip keep c).2.rest = [] := by simpa [next, peek] using h
  rw [hp.rest, hend, List.append_nil]
  exact hgap

theorem pulled_of_next {keep : Bool} {c after : Cursor} {t : Token}
    (h : next keep c = some (t, after)) :
    ∃ gap start, c.Passes gap start ∧ Gap keep gap ∧ Pulled keep start t after := by
  obtain ⟨hp, hgap, hstart⟩ := skip_spec keep c
  obtain ⟨x, hx, ht⟩ := Option.map_eq_some_iff.mp h
  have hpulled := pulled_tokenAt hx (hstart x hx)
  rw [ht] at hpulled
  exact ⟨_, _, hp, hgap, hpulled⟩

theorem shorter_of_next {keep : Bool} {c after : Cursor} {t : Token}
    (h : next keep c = some (t, after)) : after.rest.length < c.rest.length := by
  obtain ⟨gap, start, hp, -, hpulled⟩ := pulled_of_next h
  refine (hp.trans hpulled.passes).shorter ?_
  simp [hpulled.shaped.text_ne_nil]

def tokens (keep : Bool) (c : Cursor) : List Token :=
  match h : next keep c with
  | none => []
  | some (t, after) =>
    have := shorter_of_next h
    t :: tokens keep after
termination_by c.rest.length

theorem laid_tokens {keep : Bool} {line : Nat} {before : List Char} {c : Cursor}
    (hl : c.line = line + before.count '\n') :
    Laid keep (OnLine line) before c.rest (tokens keep c) := by
  fun_induction tokens keep c generalizing before with
  | case1 c h => exact .last (gap_of_next h)
  | case2 c t after h hlt ih =>
    obtain ⟨gap, start, hp, hgap, hpulled⟩ := pulled_of_next h
    have hstart : start.line = line + (before ++ gap).count '\n' := by
      rw [hp.line, hl, List.count_append, Nat.add_assoc]
    have hafter : after.line = line + (before ++ gap ++ t.text.toList).count '\n' := by
      rw [hpulled.passes.line, hstart]
      simp only [List.count_append]
      omega
    rw [hp.rest, hpulled.passes.rest, ← List.append_assoc]
    exact .next hgap (hpulled.line.trans hstart) hpulled.shaped (ih hafter)

/-- The tokens that are pulled from a text are the ones that the scanner finds. -/
theorem tokens_ofText (source : String) (line : Nat) (keep : Bool) :
    tokens keep (.ofText source line) = scan source line keep := by
  let c := Cursor.ofText source line
  have h : Laid keep (OnLine line) [] c.rest (tokens keep c) := laid_tokens rfl
  exact h.eq_run.symm

end Lexer
end Concatenative
