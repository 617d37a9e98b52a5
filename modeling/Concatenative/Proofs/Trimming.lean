import Concatenative.Proofs.FeedNumbers
set_option autoImplicit false

/-!
Lines are trimmed before they are collected. That changes nothing as long as every blank that is
lost stands between words or in a comment, but a string loses the blanks that it has at the ends of
lines.
-/
namespace Concatenative
open Text

namespace Text

def marks (cs : List Char) : List (Char × Bool) :=
  (cs.takeWhile isBlank).map (·, false) ++ (trimChars cs).map (·, true) ++
    ((cs.dropWhile isBlank).reverse.takeWhile isBlank).reverse.map (·, false)

def marked : List String → List (Char × Bool)
  | [] => []
  | [line] => marks line.toList
  | line :: next :: rest => marks line.toList ++ ('\n', true) :: marked (next :: rest)

theorem marks_parts (cs : List Char) : ∃ lead trail : List Char,
    marks cs = lead.map (·, false) ++ (trimChars cs).map (·, true) ++ trail.map (·, false) ∧
    cs = lead ++ trimChars cs ++ trail ∧
    (∀ c ∈ lead, isBlank c = true) ∧ ∀ c ∈ trail, isBlank c = true := by
  have hblank : ∀ ds : List Char, ∀ c ∈ ds.takeWhile isBlank, isBlank c = true :=
    fun ds => List.all_eq_true.mp List.all_takeWhile
  have hkept : trimChars cs ++ ((cs.dropWhile isBlank).reverse.takeWhile isBlank).reverse =
      cs.dropWhile isBlank := by
    rw [trimChars, ← List.reverse_append, List.takeWhile_append_dropWhile, List.reverse_reverse]
  refine ⟨_, _, rfl, ?_, hblank cs, fun c hc => hblank _ c (List.mem_reverse.mp hc)⟩
  rw [List.append_assoc, hkept, List.takeWhile_append_dropWhile]

theorem marks_fst (cs : List Char) : (marks cs).map Prod.fst = cs := by
  obtain ⟨lead, trail, hm, hcs, -⟩ := marks_parts cs
  rw [hm]
  simpa [Function.comp_def] using hcs.symm

theorem marked_fst (lines : List String) :
    (marked lines).map Prod.fst = ("\n".intercalate lines).toList := by
  induction lines with
  | nil => rfl
  | cons line rest ih =>
    cases rest with
    | nil => simp [marked, marks_fst]
    | cons next rest => simp [marked, marks_fst, ih]

theorem isBlank_of_marks {cs : List Char} {c : Char} (h : (c, false) ∈ marks cs) :
    isBlank c = true := by
  obtain ⟨lead, trail, hm, -, hlead, htrail⟩ := marks_parts cs
  simp only [hm, List.mem_append, List.mem_map, Prod.mk.injEq] at h
  rcases h with (⟨d, hd, rfl, -⟩ | ⟨d, -, -, hf⟩) | ⟨d, hd, rfl, -⟩
  · exact hlead d hd
  · cases hf
  · exact htrail d hd

theorem isBlank_of_marked {lines : List String} {c : Char} (h : (c, false) ∈ marked lines) :
    isBlank c = true := by
  induction lines with
  | nil => simp [marked] at h
  | cons line rest ih =>
    cases rest with
    | nil => exact isBlank_of_marks h
    | cons next rest =>
      simp only [marked, List.mem_append, List.mem_cons, Prod.mk.injEq] at h
      rcases h with h | ⟨-, hf⟩ | h
      · exact isBlank_of_marks h
      · cases hf
      · exact ih h

end Text

def Mode.inWord : Mode → Bool
  | .word _ _ => true
  | .string _ _ => true
  | _ => false

namespace Scan

/-- From a mode on, the scanner takes no character into a word that is marked as dropped. -/
def Avoids : Nat → Mode → List (Char × Bool) → Prop
  | _, _, [] => True
  | line, m, (c, kept) :: xs =>
    (kept = false → (m.next line c).inWord = false) ∧ Avoids (lineAfter line c) (m.next line c) xs

theorem avoids_append {line : Nat} {m : Mode} {xs ys : List (Char × Bool)} :
    Avoids line m (xs ++ ys) ↔
      Avoids line m xs ∧
        Avoids (run false ⟨line, m, []⟩ (xs.map Prod.fst)).line
          (run false ⟨line, m, []⟩ (xs.map Prod.fst)).mode ys := by
  induction xs generalizing line m with
  | nil => simp [Avoids]
  | cons x xs ih =>
    obtain ⟨c, kept⟩ := x
    obtain ⟨hm, -⟩ := run_found false (lineAfter line c) (m.next line c)
      (m.emit false line c).reverse (xs.map Prod.fst)
    rw [List.cons_append, Avoids, Avoids, ih, and_assoc, List.map_cons, run_cons, step,
      List.append_nil, hm, run_line, run_line]

theorem avoids_kept {line : Nat} {m : Mode} {xs : List (Char × Bool)}
    (h : ∀ x ∈ xs, x.2 = true) : Avoids line m xs := by
  induction xs generalizing line m with
  | nil => trivial
  | cons x xs ih =>
    obtain ⟨c, kept⟩ := x
    obtain ⟨hk, hxs⟩ := List.forall_mem_cons.mp h
    exact ⟨fun hf => absurd hk (by simp [hf]), ih hxs⟩

theorem avoids_gap {line : Nat} {xs : List (Char × Bool)}
    (h : ∀ x ∈ xs, isSeparator x.1 = true) : Avoids line .gap xs := by
  induction xs generalizing line with
  | nil => trivial
  | cons x xs ih =>
    obtain ⟨c, kept⟩ := x
    obtain ⟨hc, hxs⟩ := List.forall_mem_cons.mp h
    have hn : Mode.gap.next line c = .gap := if_pos hc
    rw [Avoids, hn]
    exact ⟨fun _ => rfl, ih hxs⟩

theorem avoids_remark {line l : Nat} {seen : List Char} {xs : List (Char × Bool)}
    (h : '\n' ∉ xs.map Prod.fst) : Avoids line (.comment l seen) xs := by
  induction xs generalizing line seen with
  | nil => trivial
  | cons x xs ih =>
    obtain ⟨c, kept⟩ := x
    rw [List.map_cons, List.mem_cons, not_or] at h
    have hn : (Mode.comment l seen).next line c = .comment l (c :: seen) := if_neg (Ne.symm h.1)
    rw [Avoids, hn]
    exact ⟨fun _ => rfl, ih h.2⟩

theorem avoids_ends {line : Nat} {m : Mode} {xs : List (Char × Bool)}
    (hm : m.Ends (xs.map Prod.fst)) (h : Avoids line .gap xs) : Avoids line m xs := by
  cases xs with
  | nil => trivial
  | cons x xs =>
    obtain ⟨c, kept⟩ := x
    have hs : step false ⟨line, m, []⟩ c = _ := step_ends hm
    have hn : m.next line c = Mode.gap.next line c := congrArg mode hs
    rw [Avoids, hn]
    exact h

end Scan

namespace Token
open Lexeme

/-- Behind the characters `before` of the lines, trimming keeps all of a word. -/
def Spared (lines : List String) (before : List Char) (t : Token) : Prop :=
  t.isWord = true →
    (((marked lines).drop before.length).take t.text.toList.length).all Prod.snd = true

theorem Shaped.mapLine {keep : Bool} {t : Token} {rest : List Char} (h : t.Shaped keep rest)
    (f : Nat → Nat) : (t.mapLine f).Shaped keep rest := by
  cases h with
  | newline hk => exact .newline hk
  | quoted h => exact .quoted h
  | unclosed h => exact .unclosed h
  | comment h hr => exact .comment h hr
  | bare h hr => exact .bare h hr

theorem Shaped.avoids {t : Token} {rest : List Char} {xs : List (Char × Bool)}
    (h : t.Shaped false rest) (hx : xs.map Prod.fst = t.text.toList)
    (hb : ∀ c, (c, false) ∈ xs → isBlank c = true)
    (hw : t.isWord = true → ∀ x ∈ xs, x.2 = true) (line : Nat) : Scan.Avoids line .gap xs := by
  cases h with
  | newline hk => cases hk
  | quoted h => exact Scan.avoids_kept (hw rfl)
  | unclosed h => exact Scan.avoids_kept (hw rfl)
  | bare h hr => exact Scan.avoids_kept (hw rfl)
  | comment h hr =>
    obtain ⟨body, ht, hbody, hhead⟩ := h
    rw [ht, List.map_eq_cons_iff] at hx
    obtain ⟨⟨_, kept⟩, xs, rfl, rfl, rfl⟩ := hx
    have hk : kept ≠ false := by
      rintro rfl
      exact absurd (hb '\\' List.mem_cons_self) (by decide)
    have hn : Mode.gap.next line '\\' = .word line ['\\'] := by simp [Mode.next, isSeparator]
    rw [Scan.Avoids, hn]
    refine ⟨fun hf => absurd hf hk, ?_⟩
    cases xs with
    | nil => trivial
    | cons x xs =>
      obtain ⟨c, kept⟩ := x
      rw [List.map_cons, List.mem_cons, not_or] at hbody
      have hc : isSeparator c = true := hhead c (by simp)
      have hn' : (Mode.word line ['\\']).next (lineAfter line '\\') c =
          .comment line [c, '\\'] := by
        simp [Mode.next, Mode.beginsComment, hc, Ne.symm hbody.1]
      rw [Scan.Avoids, hn']
      exact ⟨fun _ => rfl, Scan.avoids_remark hbody.2⟩

theorem Laid.avoids {lines : List String} {before cs : List Char} {ts : List Token}
    (h : Laid false (Spared lines) before cs ts) {xs : List (Char × Bool)}
    (hm : (marked lines).drop before.length = xs) (hx : xs.map Prod.fst = cs) (line : Nat) :
    Scan.Avoids line .gap xs := by
  induction h generalizing xs line with
  | last hg =>
    subst hx
    exact Scan.avoids_gap fun x hx => (hg x.1 (List.mem_map_of_mem hx)).1
  | @next before gap rest t ts hg hp hs hl ih =>
    rw [List.append_assoc, List.map_eq_append_iff] at hx
    obtain ⟨g, xs', rfl, rfl, hx⟩ := hx
    rw [List.map_eq_append_iff] at hx
    obtain ⟨w, r, rfl, hw, rfl⟩ := hx
    have hafter : (marked lines).drop (before ++ g.map Prod.fst).length = w ++ r := by
      rw [List.length_append, ← List.drop_drop, hm]
      simp
    have hlen : w.length = t.text.toList.length := by rw [← hw, List.length_map]
    have hrest : (marked lines).drop (before ++ g.map Prod.fst ++ t.text.toList).length = r := by
      rw [List.length_append, ← List.drop_drop, hafter, ← hlen]
      simp
    have hblank : ∀ c, (c, false) ∈ w → isBlank c = true := by
      intro c hc
      have hd : (c, false) ∈ (marked lines).drop before.length := by simp [hm, hc]
      exact isBlank_of_marked (List.mem_of_mem_drop hd)
    have hkept : t.isWord = true → ∀ x ∈ w, x.2 = true := by
      intro ht x hxw
      have hall := hp ht
      rw [hafter, ← hlen, List.take_left] at hall
      exact List.all_eq_true.mp hall x hxw
    rw [Scan.avoids_append, Scan.run_gap hg, Scan.avoids_append, hw]
    refine ⟨Scan.avoids_gap fun x hx => (hg x.1 (List.mem_map_of_mem hx)).1,
      hs.avoids hw hblank hkept _, ?_⟩
    obtain ⟨s, hrun, -, hend⟩ :=
      Scan.run_shaped (hs.mapLine fun _ => line + (g.map Prod.fst).count '\n')
    rw [mapLine_text, mapLine_line] at hrun
    rw [hrun]
    exact Scan.avoids_ends hend (ih hrest rfl _)

end Token

def Mode.AtStart (m : Mode) : Prop := m = .gap ∨ m.inString = true

theorem Mode.atStart_newline (m : Mode) (line : Nat) : (m.next line '\n').AtStart := by
  cases h : m.inString with
  | false => exact .inl (next_newline h line).1
  | true =>
    cases m with
    | string l seen => exact .inr (by simp [next, inString])
    | gap => cases h
    | word l seen => cases h
    | comment l seen => cases h

theorem Mode.ends_newline {m : Mode} (h : m.inString = false) (rest : List Char) :
    m.Ends ('\n' :: rest) := by
  cases m with
  | gap => trivial
  | word l seen => simp [Ends, isSeparator, beginsComment]
  | string l seen => cases h
  | comment l seen => simp [Ends]

namespace Scan
open Token

/-- Two scanners at the end of a line that differ at most in the gap or comment they stand in. -/
def Akin (s s' : Scan) : Prop :=
  s = s' ∨ s.mode.inString = false ∧ s'.mode.inString = false ∧ s.line = s'.line ∧
    s.tokens.filter isWord = s'.tokens.filter isWord

theorem gap_of_avoids {line : Nat} {cs : List Char} (h : Avoids line .gap (cs.map (·, false))) :
    Lexeme.Gap false cs := by
  induction cs generalizing line with
  | nil => exact Lexeme.gap_nil false
  | cons c cs ih =>
    obtain ⟨hc, hcs⟩ := h
    have hs : isSeparator c = true := by
      have hw := hc rfl
      simp only [Mode.next] at hw
      split at hw
      · assumption
      · split at hw <;> cases hw
    have hn : Mode.gap.next line c = .gap := if_pos hs
    rw [hn] at hcs
    exact (ih hcs).cons hs (by simp)

theorem run_dropped {s : Scan} {cs : List Char} (hn : '\n' ∉ cs)
    (hb : ∀ c ∈ cs, isBlank c = true) (hm : s.mode.AtStart)
    (h : Avoids s.line s.mode (cs.map (·, false))) : run false s cs = s := by
  obtain ⟨line, mode, found⟩ := s
  rcases hm with hm | hm
  · obtain rfl : mode = .gap := hm
    rw [run_gap (gap_of_avoids h), List.count_eq_zero.mpr hn, Nat.add_zero]
  · cases mode with
    | string l seen =>
      cases cs with
      | nil => rfl
      | cons c cs =>
        have hq : c ≠ '"' := by
          rintro rfl
          exact absurd (hb '"' List.mem_cons_self) (by decide)
        have hw := h.1 rfl
        simp [Mode.next, Mode.inWord, hq] at hw
    | gap => cases hm
    | word l seen => cases hm
    | comment l seen => cases hm

theorem akin_remark {line l : Nat} {seen cs : List Char} {found : List Token} {s : Scan}
    (hn : '\n' ∉ cs) (hs : s.mode.inString = false) (hl : s.line = line)
    (hw : s.tokens.filter isWord = found.reverse.filter isWord) :
    Akin (run false ⟨line, .comment l seen, found⟩ cs) s := by
  obtain ⟨hm, -⟩ := run_found false line (.comment l seen) found cs
  rw [run_remark hn] at hm
  refine .inr ⟨by rw [hm]; rfl, hs, ?_, ?_⟩
  · rw [run_line, List.count_eq_zero.mpr hn, hl]
    rfl
  · rw [tokens_found, run_remark hn, hw]
    simp [tokens, Mode.finish, Mode.token, isWord]

theorem akin_dropped {s : Scan} {cs : List Char} (hn : '\n' ∉ cs)
    (hb : ∀ c ∈ cs, isBlank c = true) (h : Avoids s.line s.mode (cs.map (·, false))) :
    Akin (run false s cs) s := by
  obtain ⟨line, mode, found⟩ := s
  -- In a gap or a string nothing happens; a word ends, or turns out to begin a comment.
  cases mode with
  | gap => exact .inl (run_dropped hn hb (.inl rfl) h)
  | string l seen => exact .inl (run_dropped hn hb (.inr rfl) h)
  | comment l seen =>
    refine akin_remark hn rfl rfl ?_
    simp [tokens, Mode.finish, Mode.token, isWord]
  | word l seen =>
    cases cs with
    | nil => exact .inl rfl
    | cons c cs =>
      obtain ⟨hc, hcs⟩ := h
      rw [List.mem_cons, not_or] at hn
      have hl : lineAfter line c = line := if_neg (Ne.symm hn.1)
      have hs : isSeparator c = true := by
        have hw := hc rfl
        simp only [Mode.next] at hw
        split at hw
        · assumption
        · cases hw
      by_cases hbc : Mode.beginsComment seen c = true
      · obtain ⟨rfl, -⟩ : seen = ['\\'] ∧ c ≠ '\n' := by simpa [Mode.beginsComment] using hbc
        have hstep : step false ⟨line, .word l ['\\'], found⟩ c =
            ⟨line, .comment l [c, '\\'], found⟩ := by
          simp [step, Mode.next, Mode.emit, hs, hbc, hl]
        rw [run_cons, hstep]
        refine akin_remark hn.2 rfl rfl ?_
        simp [tokens, Mode.finish, Mode.wordToken, Mode.token, isWord]
      · rw [Bool.not_eq_true] at hbc
        have hnext : (Mode.word l seen).next line c = .gap := by simp [Mode.next, hs, hbc]
        have hstep : step false ⟨line, .word l seen, found⟩ c =
            ⟨line, .gap, Mode.wordToken l seen :: found⟩ := by
          simp [step, hnext, Mode.emit, Mode.newlineToken, hs, hbc, hl]
        rw [hnext, hl] at hcs
        have hrest := run_dropped (s := ⟨line, .gap, Mode.wordToken l seen :: found⟩) hn.2
          (fun d hd => hb d (List.mem_cons_of_mem c hd)) (.inl rfl) hcs
        rw [run_cons, hstep, hrest]
        exact .inr ⟨rfl, rfl, rfl, by simp [tokens, Mode.finish]⟩

/-- The words of a line, and whether it ends in a string, are those of the trimmed line. -/
theorem akin_trim {line : Nat} {m : Mode} {cs : List Char} (hn : '\n' ∉ cs) (hm : m.AtStart)
    (h : Avoids line m (marks cs)) :
    Akin (run false ⟨line, m, []⟩ cs) (run false ⟨line, m, []⟩ (trimChars cs)) := by
  obtain ⟨lead, trail, hmarks, hcs, hlead, htrail⟩ := marks_parts cs
  rw [hmarks, List.append_assoc, avoids_append, avoids_append] at h
  obtain ⟨ha, -, hc⟩ := h
  rw [hcs] at hn
  simp only [List.mem_append, not_or] at hn
  have hrun := run_dropped (s := ⟨line, m, []⟩) hn.1.1 hlead hm ha
  simp only [List.map_map, Function.comp_def, List.map_id'] at hc
  rw [hrun] at hc
  have hsplit : run false ⟨line, m, []⟩ cs =
      run false (run false ⟨line, m, []⟩ (trimChars cs)) trail := by
    conv => lhs; rw [hcs]
    rw [run_append, run_append, hrun]
  rw [hsplit]
  exact akin_dropped hn.2 htrail hc

theorem Akin.newline {s s' : Scan} (h : Akin s s') {cs ds : List Char}
    (hw : (run false ⟨s.line + 1, s.mode.next s.line '\n', []⟩ cs).tokens.filter isWord =
      (run false ⟨s.line + 1, s.mode.next s.line '\n', []⟩ ds).tokens.filter isWord) :
    (run false s ('\n' :: cs)).tokens.filter isWord =
      (run false s' ('\n' :: ds)).tokens.filter isWord := by
  rcases h with rfl | ⟨hs, hs', hl, ht⟩
  · simp only [run_cons, step, lineAfter, if_true]
    rw [tokens_found, tokens_found false _ _ _ ds, List.filter_append, List.filter_append, hw]
  · have hgap : ∀ es, (run false ⟨s'.line, .gap, []⟩ ('\n' :: es)).tokens =
        (run false ⟨s'.line + 1, .gap, []⟩ es).tokens := fun es => tokens_cons ..
    rw [(Mode.next_newline hs s.line).1, hl] at hw
    rw [tokens_ends (Mode.ends_newline hs cs), tokens_ends (Mode.ends_newline hs' ds),
      List.filter_append, List.filter_append, ht, hl, hgap, hgap, hw]

theorem words_trim {lines : List String} (hn : ∀ line ∈ lines, '\n' ∉ line.toList) {l : Nat}
    {m : Mode} (hm : m.AtStart) (h : Avoids l m (marked lines)) :
    (run false ⟨l, m, []⟩ ("\n".intercalate lines).toList).tokens.filter isWord =
      (run false ⟨l, m, []⟩ ("\n".intercalate (lines.map trim)).toList).tokens.filter isWord := by
  induction lines generalizing l m with
  | nil => rfl
  | cons line rest ih =>
    obtain ⟨hline, hrest⟩ := List.forall_mem_cons.mp hn
    cases rest with
    | nil =>
      rcases akin_trim hline hm h with hs | ⟨-, -, -, hw⟩
      · simp [hs]
      · simpa using hw
    | cons next rest =>
      rw [marked, avoids_append, marks_fst] at h
      obtain ⟨hfirst, -, hafter⟩ := h
      have hstart := Mode.atStart_newline (run false ⟨l, m, []⟩ line.toList).mode
        (run false ⟨l, m, []⟩ line.toList).line
      have hraw : ("\n".intercalate (line :: next :: rest)).toList =
          line.toList ++ '\n' :: ("\n".intercalate (next :: rest)).toList := by simp
      have htrim : ("\n".intercalate ((line :: next :: rest).map trim)).toList =
          trimChars line.toList ++
            '\n' :: ("\n".intercalate ((next :: rest).map trim)).toList := by simp
      rw [hraw, htrim, run_append, run_append]
      exact (akin_trim hline hm hfirst).newline (ih hrest hstart hafter)

end Scan

/-- No blank that trimming drops belongs to a word: the lines have a layout with all their words
spared. -/
def Text.Unharmed (lines : List String) : Prop :=
  ∃ ts, Token.Laid false (Token.Spared lines) [] ("\n".intercalate lines).toList ts

theorem Token.words_trim {lines : List String} (hn : ∀ line ∈ lines, '\n' ∉ line.toList)
    (h : Unharmed lines) (line : Nat) :
    words ("\n".intercalate lines) line = words ("\n".intercalate (lines.map trim)) line := by
  obtain ⟨ts, hl⟩ := h
  exact Scan.words_trim hn (.inl rfl) (hl.avoids rfl (marked_fst lines) line)

namespace Statement

theorem Record.feeds_foldl (r : Record) (calls : List Call) :
    ∃ more, (calls.foldl call r).feeds = r.feeds ++ more := by
  induction calls generalizing r with
  | nil => exact ⟨[], by simp⟩
  | cons c calls ih =>
    obtain ⟨more, hm⟩ := ih (r.call c)
    rw [List.foldl_cons, hm]
    cases c with
    | feed line => exact ⟨_ :: more, by rw [feeds_feed, List.append_assoc]; rfl⟩
    | flush => exact ⟨more, by rw [feeds_flush]⟩
    | reset => exact ⟨more, by rw [feeds_reset]⟩

theorem Record.statement_held {r : Record} {line : String} {calls : List Call}
    (hb : ¬ (r.statement.text = "" ∧ Text.trim line = ""))
    (ho : ∀ f ∈ (calls.foldl call (r.call (.feed line))).feeds, f.overlong = false) :
    (r.call (.feed line)).statement = r.statement.extend line := by
  obtain ⟨more, hm⟩ := feeds_foldl (r.call (.feed line)) calls
  have hf : (⟨line, (r.statement.feed line).1⟩ : Feed).overlong = false := by
    apply ho
    rw [hm, feeds_feed]
    simp
  rw [← Bool.not_eq_true, Feed.overlong_iff, feed_overlong_iff hb, Nat.not_lt] at hf
  rw [statement_feed, feed_eq, if_neg hb, if_pos hf]

theorem Record.held_foldl {r : Record} {line : String} {rest : List String}
    (hb : ¬ (r.statement.text = "" ∧ Text.trim line = ""))
    (ho : ∀ f ∈ (((line :: rest).map Call.feed).foldl call r).feeds, f.overlong = false) :
    (((line :: rest).map Call.feed).foldl call r).statement.text =
        r.statement.ahead (line :: rest) ∧
      (((line :: rest).map Call.feed).foldl call r).statement.startLine =
        r.statement.aheadLine := by
  have hs := statement_held hb ho
  induction rest generalizing r line with
  | nil =>
    rw [List.map_singleton, List.foldl_cons, List.foldl_nil, hs]
    exact ⟨rfl, rfl⟩
  | cons next rest ih =>
    have hne := extend_text_ne hb
    have hb' : ¬ ((r.call (.feed line)).statement.text = "" ∧ Text.trim next = "") := by
      rw [hs]
      exact fun h => hne h.1
    rw [← ahead_extend hne, ← aheadLine_extend hne, ← hs]
    exact ih hb' ho (statement_held hb' ho)

end Statement

end Concatenative
