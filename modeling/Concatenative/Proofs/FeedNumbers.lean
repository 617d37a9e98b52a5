import Concatenative.Proofs.Accumulation
import Concatenative.Proofs.Brackets
import Concatenative.Proofs.Grammar
import Concatenative.Proofs.Layout
set_option autoImplicit false

/-!
A statement under calls in any order. It never grows past its limit, what it holds are the latest
lines it was fed, and the code that it gives carries the numbers of the lines that its words came
with.
-/
namespace Concatenative

namespace Statement

inductive Call where
  | feed (line : String)
  | flush
  | reset
  deriving DecidableEq, Repr

def Call.line? : Call → Option String
  | .feed line => some line
  | _ => none

structure Feed where
  line : String
  outcome : Except Error Progress

/-- The line would have made the statement too long. -/
def Feed.overlong (f : Feed) : Bool :=
  match f.outcome with
  | .error .statementTooLong => true
  | _ => false

inductive Event where
  | fed (feed : Feed)
  | flushed (outcome : Except Error Code)
  | reset

namespace Event

def feed? : Event → Option Feed
  | .fed f => some f
  | _ => none

def code? : Event → Option Code
  | .fed ⟨_, .ok (.complete code)⟩ => some code
  | .flushed (.ok code) => some code
  | _ => none

def overlong : Event → Bool
  | .fed f => f.overlong
  | _ => false

def feedsFirst : List Event → Bool
  | [] => false
  | .fed _ :: _ => true
  | .flushed _ :: es => feedsFirst es
  | .reset :: _ => false

/-- After every line that is too long there is a reset before another line is fed. -/
def heeded : List Event → Bool
  | [] => true
  | e :: es => !(e.overlong && feedsFirst es) && heeded es

end Event

/-- A statement and the calls it has had. -/
structure Record where
  events : List Event
  statement : Statement

namespace Record

def feeds (r : Record) : List Feed := r.events.filterMap Event.feed?

def call (r : Record) : Call → Record
  | .feed line =>
    ⟨r.events ++ [.fed ⟨line, (r.statement.feed line).1⟩], (r.statement.feed line).2⟩
  | .flush => ⟨r.events ++ [.flushed r.statement.flush], r.statement⟩
  | .reset => ⟨r.events ++ [.reset], r.statement.reset⟩

def after (limit : Nat) (calls : List Call) : Record := calls.foldl call ⟨[], .empty limit⟩

end Record

end Statement

namespace Text

/-- Lines joined by newlines, each character with the number of the line it came with. The first
line is number `n`, and a newline belongs to the line that it ends. -/
def stamped (n : Nat) : List String → List (Char × Nat)
  | [] => []
  | [line] => line.toList.map (·, n)
  | line :: next :: rest =>
    line.toList.map (·, n) ++ ('\n', n) :: stamped (n + 1) (next :: rest)

theorem stamped_fst (n : Nat) (lines : List String) :
    (stamped n lines).map Prod.fst = ("\n".intercalate lines).toList := by
  induction lines generalizing n with
  | nil => rfl
  | cons line rest ih =>
    cases rest with
    | nil => simp [stamped, Function.comp_def]
    | cons next rest =>
      rw [stamped, List.map_append, List.map_cons, ih]
      simp [Function.comp_def]

def Counted : Nat → List (Char × Nat) → Prop
  | _, [] => True
  | n, (c, m) :: rest => m = n ∧ Counted (lineAfter n c) rest

theorem counted_line {n : Nat} {cs : List Char} (h : '\n' ∉ cs) {rest : List (Char × Nat)}
    (hr : Counted n rest) : Counted n (cs.map (·, n) ++ rest) := by
  induction cs with
  | nil => exact hr
  | cons c cs ih =>
    rw [List.mem_cons, not_or] at h
    have hc : lineAfter n c = n := if_neg (Ne.symm h.1)
    refine ⟨rfl, ?_⟩
    rw [hc]
    exact ih h.2

theorem counted_stamped (n : Nat) {lines : List String}
    (h : ∀ line ∈ lines, '\n' ∉ line.toList) : Counted n (stamped n lines) := by
  induction lines generalizing n with
  | nil => trivial
  | cons line rest ih =>
    obtain ⟨hline, hrest⟩ := List.forall_mem_cons.mp h
    cases rest with
    | nil => simpa [stamped] using counted_line hline (show Counted n [] from trivial)
    | cons next rest => exact counted_line hline ⟨rfl, ih (n + 1) hrest⟩

theorem Counted.eq_count {n : Nat} {front rest : List (Char × Nat)} {c : Char} {m : Nat}
    (h : Counted n (front ++ (c, m) :: rest)) : m = n + (front.map Prod.fst).count '\n' := by
  induction front generalizing n with
  | nil => exact h.1
  | cons d front ih =>
    obtain ⟨d, k⟩ := d
    rw [ih h.2]
    by_cases hd : d = '\n'
    · simp [lineAfter, hd]; omega
    · simp [lineAfter, hd]

/-- The newlines before a character tell with which line it came. -/
theorem stamped_get (n : Nat) {lines : List String} (h : ∀ line ∈ lines, '\n' ∉ line.toList)
    {before rest : List Char} {c : Char}
    (ht : ("\n".intercalate lines).toList = before ++ c :: rest) :
    (stamped n lines)[before.length]? = some (c, n + before.count '\n') := by
  rw [← stamped_fst n, List.map_eq_append_iff] at ht
  obtain ⟨front, back, hs, rfl, hb⟩ := ht
  rw [List.map_eq_cons_iff] at hb
  obtain ⟨⟨d, m⟩, back, rfl, rfl, -⟩ := hb
  have hc := counted_stamped n h
  rw [hs] at hc ⊢
  rw [hc.eq_count]
  simp

end Text

namespace Statement

theorem not_blank {s : Statement} {line : String} (h : (s.extend line).text ≠ "") :
    ¬ (s.text = "" ∧ Text.trim line = "") := by
  rintro ⟨ht, hl⟩
  exact h (by simp [extend, ahead_singleton, ht, hl])

theorem size_extend (s : Statement) (line : String) :
    (s.extend line).text.utf8ByteSize =
      s.text.utf8ByteSize + (if s.text = "" then 0 else 1) + (Text.trim line).utf8ByteSize := by
  have hn : "\n".utf8ByteSize = 1 := by decide
  simp only [extend, ahead_singleton]
  by_cases hs : s.text = ""
  · simp [hs]
  · simp only [if_neg hs, String.utf8ByteSize_append, hn]

theorem progress_parse_ne (s : Statement) : progress s.parse ≠ .error .statementTooLong := by
  intro h
  obtain ⟨hp, -⟩ := progress_eq_error h
  unfold parse at hp
  rcases Code.parse_error hp with ⟨b, hb⟩ | ⟨b, hb⟩ | hb <;> cases hb

theorem feed_overlong_iff {s : Statement} {line : String}
    (h : ¬ (s.text = "" ∧ Text.trim line = "")) :
    (s.feed line).1 = .error .statementTooLong ↔
      s.limit < (s.extend line).text.utf8ByteSize := by
  rw [feed_eq, if_neg h]
  by_cases hl : (s.extend line).text.utf8ByteSize ≤ s.limit
  · rw [if_pos hl]
    dsimp only
    have hne := progress_parse_ne (s.extend line)
    exact ⟨fun he => absurd he hne, fun hlt => absurd hl (Nat.not_le_of_lt hlt)⟩
  · rw [if_neg hl]
    exact ⟨fun _ => Nat.lt_of_not_le hl, fun _ => rfl⟩

theorem feed_overlong {s : Statement} {line : String}
    (h : (s.feed line).1 = .error .statementTooLong) :
    (s.feed line).2 = { s with nextLine := s.nextLine + 1 } := by
  rcases feed_cases s line with ⟨-, -, hf⟩ | ⟨-, hf⟩ | hf
  · simp [hf] at h
  · rw [hf] at h
    dsimp only at h
    exact absurd h (progress_parse_ne _)
  · rw [hf]

theorem Feed.overlong_iff (f : Feed) :
    f.overlong = true ↔ f.outcome = .error .statementTooLong := by
  unfold overlong
  split
  · next h => simp [h]
  · next h => simpa using h

namespace Event

theorem feedsFirst_append {es fs : List Event} (h : feedsFirst es = true) :
    feedsFirst (es ++ fs) = true := by
  induction es with
  | nil => cases h
  | cons e es ih =>
    cases e with
    | fed f => rfl
    | flushed o => exact ih h
    | reset => cases h

theorem heeded_append {es fs : List Event} (h : heeded (es ++ fs) = true) : heeded es = true := by
  induction es with
  | nil => rfl
  | cons e es ih =>
    simp only [List.cons_append, heeded, Bool.and_eq_true, Bool.not_eq_true',
      Bool.and_eq_false_iff] at h ⊢
    refine ⟨h.1.imp_right fun hf => ?_, ih h.2⟩
    cases hes : feedsFirst es with
    | false => rfl
    | true => rw [feedsFirst_append hes] at hf; cases hf

def Stuck (es : List Event) : Prop :=
  ∃ (front : List Event) (f : Feed) (back : List Event), es = front ++ Event.fed f :: back ∧
    f.overlong = true ∧ ∀ e ∈ back, ∃ outcome, e = .flushed outcome

theorem Stuck.not_heeded {es : List Event} (h : Stuck es) (f : Feed) :
    heeded (es ++ [Event.fed f]) = false := by
  obtain ⟨front, g, back, rfl, hg, hback⟩ := h
  have hfirst : feedsFirst (back ++ [Event.fed f]) = true := by
    clear hg
    induction back with
    | nil => rfl
    | cons e back ih =>
      obtain ⟨⟨o, rfl⟩, hb⟩ := List.forall_mem_cons.mp hback
      exact ih hb
  induction front with
  | nil => simp [heeded, overlong, hg, hfirst]
  | cons e front ih =>
    rw [List.cons_append, List.cons_append, heeded, ih, Bool.and_false]

end Event

theorem feed_counts (s : Statement) (line : String) :
    (s.feed line).2.limit = s.limit ∧ (s.feed line).2.nextLine = s.nextLine + 1 := by
  rcases feed_cases s line with ⟨-, -, hf⟩ | ⟨-, hf⟩ | hf
  · simp [hf]
  · simp [hf, extend]
  · simp [hf]

namespace Record

@[simp] theorem statement_feed (r : Record) (line : String) :
    (r.call (.feed line)).statement = (r.statement.feed line).2 := rfl

@[simp] theorem feeds_feed (r : Record) (line : String) :
    (r.call (.feed line)).feeds = r.feeds ++ [⟨line, (r.statement.feed line).1⟩] := by
  simp [feeds, call, Event.feed?]

@[simp] theorem feeds_flush (r : Record) : (r.call .flush).feeds = r.feeds := by
  simp [feeds, call, Event.feed?]

@[simp] theorem feeds_reset (r : Record) : (r.call .reset).feeds = r.feeds := by
  simp [feeds, call, Event.feed?]

end Record

/-- What a statement holds of the lines that were fed: `passed` came before, and `refused` were too
long for it. -/
structure Holding (r : Record) (passed held refused : List Feed) : Prop where
  feeds : r.feeds = passed ++ held ++ refused
  text : r.statement.text = "\n".intercalate (held.map fun f => Text.trim f.line)
  start : r.statement.text ≠ "" → r.statement.startLine = passed.length + 1
  taken : ∀ f ∈ held, f.overlong = false
  overlong : ∀ f ∈ refused, f.overlong = true

namespace Holding

theorem nothing {r : Record} (h : r.statement.text = "") : Holding r r.feeds [] [] where
  feeds := by simp
  text := by simpa using h
  start ht := absurd h ht
  taken := by simp
  overlong := by simp

theorem first {r : Record} {line : String} (ht : r.statement.text = "")
    (hn : r.statement.nextLine = r.feeds.length + 1)
    (hs : (r.statement.feed line).2 = r.statement.extend line)
    (ho : (r.statement.feed line).1 ≠ .error .statementTooLong) :
    Holding (r.call (.feed line)) r.feeds [⟨line, (r.statement.feed line).1⟩] [] where
  feeds := by simp
  text := by simp [Record.call, hs, extend, ahead_singleton, ht]
  start _ := by simp [Record.call, hs, extend, aheadLine, ht, hn]
  taken := by simpa [← Bool.not_eq_true, Feed.overlong_iff] using ho
  overlong := by simp

theorem further {r : Record} {line : String} {passed held : List Feed}
    (h : Holding r passed held []) (ht : r.statement.text ≠ "")
    (hs : (r.statement.feed line).2 = r.statement.extend line)
    (ho : (r.statement.feed line).1 ≠ .error .statementTooLong) :
    Holding (r.call (.feed line)) passed (held ++ [⟨line, (r.statement.feed line).1⟩]) [] where
  feeds := by simp [h.feeds]
  text := by
    have hne : held ≠ [] := by
      rintro rfl
      exact ht h.text
    rw [List.map_append, String.intercalate_append_of_ne_nil (by simpa using hne) (by simp),
      ← h.text]
    simp [Record.call, hs, extend, ahead_singleton, ht]
  start _ := by simp [Record.call, hs, extend, aheadLine, ht, h.start ht]
  taken := by
    have hf := h.taken
    simp only [List.forall_mem_append, List.mem_singleton, forall_eq]
    exact ⟨hf, by simpa [← Bool.not_eq_true, Feed.overlong_iff] using ho⟩
  overlong := by simp

theorem refuse {r : Record} {line : String} {passed held refused : List Feed}
    (h : Holding r passed held refused)
    (ho : (r.statement.feed line).1 = .error .statementTooLong) :
    Holding (r.call (.feed line)) passed held
      (refused ++ [⟨line, (r.statement.feed line).1⟩]) where
  feeds := by simp [h.feeds]
  text := by simp [Record.call, feed_overlong ho, h.text]
  start ht := by
    simp only [Record.call, feed_overlong ho] at ht ⊢
    exact h.start ht
  taken := h.taken
  overlong := by
    simp only [List.forall_mem_append, List.mem_singleton, forall_eq]
    exact ⟨h.overlong, (Feed.overlong_iff _).mpr ho⟩

end Holding

structure Account (limit : Nat) (r : Record) : Prop where
  bound : r.statement.limit = limit
  size : r.statement.text.utf8ByteSize ≤ limit
  next : r.statement.nextLine = r.feeds.length + 1
  holding : Event.heeded r.events = true → ∃ passed held refused,
    Holding r passed held refused ∧ (refused ≠ [] → Event.Stuck r.events)

namespace Account
variable {limit : Nat} {r : Record}

theorem feed (h : Account limit r) (line : String) : Account limit (r.call (.feed line)) := by
  obtain ⟨hlimit, hnext⟩ := feed_counts r.statement line
  have hbound : (r.call (.feed line)).statement.limit = limit := by simp [hlimit, h.bound]
  have hcount : (r.call (.feed line)).statement.nextLine =
      (r.call (.feed line)).feeds.length + 1 := by simp [hnext, h.next]
  by_cases ho : (r.statement.feed line).1 = .error .statementTooLong
  · have hs := feed_overlong ho
    refine ⟨hbound, by simpa [hs] using h.size, hcount, fun hh => ?_⟩
    obtain ⟨passed, held, refused, hold, -⟩ := h.holding (Event.heeded_append hh)
    exact ⟨passed, held, _, hold.refuse ho, fun _ =>
      ⟨r.events, _, [], rfl, (Feed.overlong_iff _).mpr ho, by simp⟩⟩
  · rcases feed_cases r.statement line with ⟨ht, -, hf⟩ | ⟨hne, hf⟩ | hf
    · have hs : (r.call (.feed line)).statement.text = "" := by simp [hf, ht]
      refine ⟨hbound, ?_, hcount, fun _ => ⟨_, [], [], .nothing hs, by simp⟩⟩
      rw [hs]
      exact Nat.zero_le limit
    · have hs : (r.statement.feed line).2 = r.statement.extend line := by rw [hf]
      have hsize : (r.statement.extend line).text.utf8ByteSize ≤ limit := by
        rw [feed_overlong_iff (not_blank hne), h.bound] at ho
        omega
      refine ⟨hbound, by simpa [hs] using hsize, hcount, fun hh => ?_⟩
      by_cases ht : r.statement.text = ""
      · exact ⟨_, _, [], .first ht h.next hs ho, by simp⟩
      · obtain ⟨passed, held, refused, hold, hstuck⟩ := h.holding (Event.heeded_append hh)
        have hr : refused = [] := by
          apply Classical.byContradiction
          intro hne
          have hbad := (hstuck hne).not_heeded ⟨line, (r.statement.feed line).1⟩
          exact absurd hh (by simp [Record.call, hbad])
        subst hr
        exact ⟨_, _, [], hold.further ht hs ho, by simp⟩
    · exact absurd (by rw [hf]) ho

theorem flush (h : Account limit r) : Account limit (r.call .flush) := by
  refine ⟨h.bound, h.size, by rw [Record.feeds_flush]; exact h.next, fun hh => ?_⟩
  obtain ⟨passed, held, refused, hold, hstuck⟩ := h.holding (Event.heeded_append hh)
  refine ⟨passed, held, refused, ⟨by simpa using hold.feeds, hold.text, hold.start, hold.taken,
    hold.overlong⟩, fun hne => ?_⟩
  obtain ⟨front, f, back, he, hf, hback⟩ := hstuck hne
  refine ⟨front, f, back ++ [.flushed r.statement.flush], by simp [Record.call, he], hf, ?_⟩
  simp only [List.forall_mem_append, List.mem_singleton, forall_eq]
  exact ⟨hback, _, rfl⟩

theorem reset (h : Account limit r) : Account limit (r.call .reset) :=
  ⟨h.bound, Nat.zero_le _, by rw [Record.feeds_reset]; exact h.next,
    fun _ => ⟨_, [], [], .nothing rfl, by simp⟩⟩

theorem call (h : Account limit r) (c : Call) : Account limit (r.call c) := by
  cases c with
  | feed line => exact h.feed line
  | flush => exact h.flush
  | reset => exact h.reset

end Account

theorem account_foldl {limit : Nat} {r : Record} (h : Account limit r) (calls : List Call) :
    Account limit (calls.foldl Record.call r) := by
  induction calls generalizing r with
  | nil => exact h
  | cons c calls ih => exact ih (h.call c)

theorem account_after (limit : Nat) (calls : List Call) : Account limit (.after limit calls) := by
  have h : Account limit ⟨[], .empty limit⟩ :=
    ⟨rfl, Nat.zero_le _, rfl, fun _ => ⟨_, [], [], .nothing rfl, by simp⟩⟩
  exact account_foldl h calls

theorem Record.lines_foldl (r : Record) (calls : List Call) :
    (calls.foldl call r).feeds.map Feed.line =
      r.feeds.map Feed.line ++ calls.filterMap Call.line? := by
  induction calls generalizing r with
  | nil => simp
  | cons c calls ih =>
    rw [List.foldl_cons, ih]
    cases c <;> simp [List.filterMap_cons, Call.line?]

theorem Event.of_code? {line : String} {outcome : Except Error Progress} {code : Code}
    (h : (Event.fed ⟨line, outcome⟩).code? = some code) : outcome = .ok (.complete code) := by
  unfold code? at h
  split at h
  · next he =>
    cases he
    cases h
    rfl
  · next he => cases he
  · cases h

/-- What a call gives is the code of what is held after it. -/
theorem Record.parse_of_call {r : Record} {c : Call} {code : Code}
    (h : (r.call c).events.getLast?.bind Event.code? = some code) :
    (r.call c).statement.parse = .ok code := by
  cases c with
  | feed line =>
    simp only [call, List.getLast?_append, List.getLast?_singleton, Option.some_or,
      Option.bind_some] at h
    have ho := Event.of_code? h
    simp only [statement_feed]
    rcases feed_cases r.statement line with ⟨ht, -, hf⟩ | ⟨-, hf⟩ | hf
    · rw [hf] at ho ⊢
      obtain rfl : [] = code := by simpa using ho
      simp only [parse, ht, Code.parse_empty]
    · rw [hf] at ho ⊢
      dsimp only at ho ⊢
      exact progress_eq_complete ho
    · rw [hf] at ho
      cases ho
  | flush =>
    have ho : r.statement.flush = .ok code := by
      simp only [call, List.getLast?_append, List.getLast?_singleton, Option.some_or,
        Option.bind_some] at h
      cases hf : r.statement.flush with
      | ok c =>
        rw [hf] at h
        cases h
        rfl
      | error e =>
        rw [hf] at h
        cases h
    by_cases ht : r.statement.text = ""
    · simp only [flush, ht, if_true] at ho
      simp only [call, parse, ht, Code.parse_empty, ho]
    · simp only [flush, ht, if_false] at ho
      exact ho
  | reset => simp [call, Event.code?] at h

theorem Record.after_code {limit : Nat} {calls : List Call} {code : Code}
    (h : (after limit calls).events.getLast?.bind Event.code? = some code) :
    (after limit calls).statement.parse = .ok code := by
  rcases List.eq_nil_or_concat calls with rfl | ⟨front, c, rfl⟩
  · simp [after] at h
  · simp only [after, List.concat_eq_append, List.foldl_append] at h ⊢
    exact parse_of_call h

/-- In lines of which the first is number `n`, the token behind the characters `before` carries the
number of the line that its first character came with. -/
def Supplied (n : Nat) (lines : List String) (before : List Char) (t : Token) : Prop :=
  ∃ c ∈ t.text.toList.head?, (Text.stamped n lines)[before.length]? = some (c, t.line)

theorem Holding.supplied {r : Record} {passed held refused : List Feed}
    (h : Holding r passed held refused) (hn : ∀ f ∈ held, '\n' ∉ f.line.toList) :
    Token.Laid false (Supplied (passed.length + 1) (held.map fun f => Text.trim f.line)) []
      r.statement.text.toList (Token.scan r.statement.text r.statement.startLine false) := by
  have hlines : ∀ line ∈ held.map fun f => Text.trim f.line, '\n' ∉ line.toList := by
    intro line hl
    obtain ⟨f, hf, rfl⟩ := List.mem_map.mp hl
    exact Text.not_mem_trim (hn f hf)
  refine (Token.laid_scan r.statement.text r.statement.startLine false).imp ?_
  intro front t rest ht hne hp
  obtain ⟨c, cs, hc⟩ := List.exists_cons_of_ne_nil hne
  rw [List.nil_append, hc, List.append_assoc, List.cons_append] at ht
  have hstart : r.statement.startLine = passed.length + 1 := by
    apply h.start
    intro he
    simp [he] at ht
  rw [h.text] at ht
  refine ⟨c, by simp [hc], ?_⟩
  rw [Text.stamped_get _ hlines ht, hp, hstart]

/-- After any calls on a new statement it is within its limit, and it refuses a line exactly if it
would not be with that line. As long as no line is fed between a refusal and a reset, it holds the
latest lines that were not refused, from the one numbered as its start; and in the code that the
latest call gave, every word is numbered as the line it came with. -/
theorem accounted (limit : Nat) (calls : List Call)
    (hn : ∀ line ∈ calls.filterMap Call.line?, '\n' ∉ line.toList) :
    let r := Record.after limit calls
    let s := r.statement
    s.text.utf8ByteSize ≤ limit ∧
    (∀ line, ¬ (s.text = "" ∧ Text.trim line = "") →
      ((s.feed line).1 = .error .statementTooLong ↔
        limit < s.text.utf8ByteSize + (if s.text = "" then 0 else 1) +
          (Text.trim line).utf8ByteSize) ∧
      ((s.feed line).1 = .error .statementTooLong →
        (s.feed line).2.text = s.text ∧ (s.feed line).2.startLine = s.startLine)) ∧
    (Event.heeded r.events = true →
      ∃ passed held refused, Holding r passed held refused ∧
        ∀ code, r.events.getLast?.bind Event.code? = some code →
          ∃ ts, Token.Laid false
              (Supplied (passed.length + 1) (held.map fun f => Text.trim f.line)) []
              s.text.toList ts ∧
            Grammar.Program (ts.filter Token.isWord) code) := by
  intro r s
  have h := account_after limit calls
  refine ⟨h.size, fun line hb => ⟨?_, fun ho => ?_⟩, fun hh => ?_⟩
  · rw [feed_overlong_iff hb, size_extend, h.bound]
  · simp [feed_overlong ho]
  · obtain ⟨passed, held, refused, hold, -⟩ := h.holding hh
    have hlines : ∀ f ∈ held, '\n' ∉ f.line.toList := by
      intro f hf
      apply hn
      have hm : f ∈ (Record.after limit calls).feeds := by simp [hold.feeds, hf]
      have hl := List.mem_map_of_mem (f := Feed.line) hm
      rw [Record.after, Record.lines_foldl] at hl
      exact hl
    refine ⟨passed, held, refused, hold, fun code hc => ⟨_, hold.supplied hlines, ?_⟩⟩
    exact Grammar.program_of_parse (Record.after_code hc)

theorem accounted_refusal :
    let calls : List Call := [.feed " ", .feed "[ a", .feed "far too long", .flush, .reset,
      .feed "[ b", .feed "", .feed " \"x", .feed "y\" ]"]
    let r := Record.after 12 calls
    Event.heeded r.events = true ∧ r.statement.text = "[ b\n\n\"x\ny\" ]" ∧
    r.statement.startLine = 4 ∧
    ∃ passed held refused, Holding r passed held refused ∧
      ∃ ts, Token.Laid false
          (Supplied (passed.length + 1) (held.map fun f => Text.trim f.line)) []
          r.statement.text.toList ts ∧
        Grammar.Program (ts.filter Token.isWord)
          [.push 4 (.quotation [.call 4 "b", .push 6 (.string "x\ny")])] := by
  intro calls r
  have hh : Event.heeded r.events = true := by decide +kernel
  have ht : r.statement.text = "[ b\n\n\"x\ny\" ]" := by decide +kernel
  have hs : r.statement.startLine = 4 := by decide +kernel
  have hc : r.events.getLast?.bind Event.code? =
      some [.push 4 (.quotation [.call 4 "b", .push 6 (.string "x\ny")])] := by decide +kernel
  obtain ⟨-, -, hold⟩ := accounted 12 calls (by decide)
  obtain ⟨passed, held, refused, hheld, hcode⟩ := hold hh
  exact ⟨hh, ht, hs, passed, held, refused, hheld, hcode _ hc⟩

end Statement

end Concatenative
