import Concatenative.Dictionary
import Mathlib.Data.List.Forall2
set_option autoImplicit false

namespace Concatenative.Dictionary

def Sorted (d : Dictionary) : Prop := d.names.Pairwise fun a b => utf8 a < utf8 b

theorem utf8_inj {a b : String} (h : utf8 a = utf8 b) : a = b := by
  unfold utf8 at h
  exact String.toByteArray_inj.mp (ByteArray.ext (Array.toList_inj.mp h))

theorem utf8_lt_of_not_lt {a b : String} (hne : a ≠ b) (h : ¬ utf8 a < utf8 b) :
    utf8 b < utf8 a := by
  have hle : utf8 b ≤ utf8 a := List.not_lt.mp h
  rcases List.le_iff_lt_or_eq.mp hle with hlt | heq
  · exact hlt
  · exact absurd (utf8_inj heq.symm) hne

theorem sorted_insertEntry (name : String) (w : Word) {es : List (String × Word)}
    (h : (es.map Prod.fst).Pairwise fun a b => utf8 a < utf8 b) :
    ((insertEntry name w es).map Prod.fst).Pairwise fun a b => utf8 a < utf8 b := by
  induction es with
  | nil => simp [insertEntry]
  | cons e es ih =>
    obtain ⟨hhead, htail⟩ := List.pairwise_cons.mp h
    simp only [insertEntry]
    split
    · next hn => simpa [hn] using h
    · next hn =>
      split
      · next hlt =>
        refine List.pairwise_cons.mpr ⟨fun other hother => ?_, h⟩
        rcases List.mem_cons.mp hother with rfl | hother
        · exact hlt
        · exact List.lt_trans hlt (hhead other hother)
      · next hge =>
        refine List.pairwise_cons.mpr ⟨fun other hother => ?_, ih htail⟩
        rcases mem_names_insertEntry.mp hother with rfl | hother
        · exact utf8_lt_of_not_lt hn hge
        · exact hhead other hother

theorem findEntry_of_mem {name : String} {w : Word} {es : List (String × Word)}
    (h : (es.map Prod.fst).Nodup) (he : (name, w) ∈ es) : findEntry name es = some w := by
  induction es with
  | nil => cases he
  | cons e es ih =>
    obtain ⟨hhead, htail⟩ := List.nodup_cons.mp h
    unfold findEntry
    rcases List.mem_cons.mp he with rfl | he
    · simp
    · have hne : name ≠ e.1 := fun hn => hhead (List.mem_map.mpr ⟨(name, w), he, hn⟩)
      rw [if_neg hne, ih htail he]

namespace Sorted

theorem insert {d : Dictionary} (h : d.Sorted) (name : String) (w : Word) :
    (d.insert name w).Sorted := sorted_insertEntry name w h

theorem insertAll {d : Dictionary} (h : d.Sorted) (history : List (String × Word)) :
    (d.insertAll history).Sorted := by
  induction history generalizing d with
  | nil => exact h
  | cons e history ih => exact ih (h.insert e.1 e.2)

theorem nodup {d : Dictionary} (h : d.Sorted) : d.names.Nodup := by
  refine List.Pairwise.imp (fun {a b} hlt => ?_) h
  rintro rfl
  exact List.lt_irrefl _ hlt

theorem names_eq {d d' : Dictionary} (h : d.Sorted) (h' : d'.Sorted)
    (hm : ∀ name, name ∈ d.names ↔ name ∈ d'.names) : d.names = d'.names := by
  have hp : d.names.Perm d'.names := (List.perm_ext_iff_of_nodup h.nodup h'.nodup).mpr hm
  refine hp.eq_of_pairwise (fun a b _ _ hab hba => ?_) h h'
  exact absurd (List.lt_trans hab hba) (List.lt_irrefl _)

/-- No row is left behind by a definition that was replaced: each entry is the one found. -/
theorem get?_of_mem {d : Dictionary} (h : d.Sorted) {name : String} {w : Word}
    (he : (name, w) ∈ d.entries) : d.get? name = some w := findEntry_of_mem h.nodup he

end Sorted

/-- The latest definition of a name is the one that counts. -/
theorem get?_insertAll (d : Dictionary) (history : List (String × Word)) (name : String) :
    (d.insertAll history).get? name = (history.reverse.lookup name).or (d.get? name) := by
  induction history generalizing d with
  | nil => rfl
  | cons e history ih =>
    obtain ⟨n, w⟩ := e
    have hlast : [(n, w)].lookup name = if name = n then some w else none := by
      by_cases hn : name = n
      · rw [hn, List.lookup_cons_self, if_pos rfl]
      · rw [List.lookup_cons, beq_eq_false_iff_ne.mpr hn, if_neg hn, List.lookup_nil]
    rw [insertAll_cons, ih, get?_insert, List.reverse_cons, List.lookup_append, Option.or_assoc, hlast]
    split <;> rfl

theorem width_eq (d : Dictionary) : d.width = (d.names.map String.utf8ByteSize).max?.getD 0 := by
  rw [width, List.foldl_max, Nat.zero_max]

theorem length_le_utf8ByteSize (s : String) : s.length ≤ s.utf8ByteSize := by
  rw [← String.ofList_toList (s := s)]
  induction s.toList with
  | nil => simp
  | cons c cs ih =>
    have hc : 0 < c.utf8Size := c.utf8Size_pos
    rw [String.ofList_cons, String.length_append, String.utf8ByteSize_append,
      String.length_singleton, String.utf8ByteSize_singleton]
    omega

theorem length_le_width {d : Dictionary} {name : String} (h : name ∈ d.names) :
    name.length ≤ d.width := by
  have hsize : name.utf8ByteSize ∈ d.names.map String.utf8ByteSize := List.mem_map_of_mem h
  rw [width_eq]
  exact Nat.le_trans (length_le_utf8ByteSize name) (List.le_max?_getD_of_mem hsize)

/-- The row of a word in a listing, without the line break in front. -/
structure Shows (width : Nat) (name : String) (w : Word) (row : List Char) : Prop where
  /-- The name is not cut, but filled up with blanks. -/
  column : ∃ blanks, name.length + blanks = width ∧
    row.take width = name.toList ++ List.replicate blanks ' '
  gap : (row.drop width).take 2 = [' ', ' ']
  /-- The effect starts at the same place whatever the name is. -/
  rest : row.drop (width + 2) = ((w.effect.map Effect.text).getD "").toList ++
    (if w.description = "" then "" else "  --  " ++ w.description).toList

theorem shows_row {width : Nat} {name : String} (h : name.length ≤ width) (w : Word) :
    Shows width name w (row width name w).toList.tail := by
  have hcolumn : (column width name).toList.length = width := by
    simp only [column, String.toList_append, String.toList_ofList, List.length_append,
      String.length_toList, List.length_replicate]
    omega
  have hrow : (row width name w).toList.tail = (column width name).toList ++
      ([' ', ' '] ++ (((w.effect.map Effect.text).getD "").toList ++
        (if w.description = "" then "" else "  --  " ++ w.description).toList)) := by
    simp [row]
  rw [hrow]
  refine ⟨⟨width - name.length, by omega, ?_⟩, ?_, ?_⟩
  · rw [List.take_left' hcolumn]
    simp [column]
  · rw [List.drop_left' hcolumn]
    rfl
  · rw [← List.drop_drop, List.drop_left' hcolumn]
    rfl

theorem toList_text (d : Dictionary) :
    d.text.toList = (toString d.names.length ++ " words defined.\n").toList ++
      (d.entries.map fun e => (row d.width e.1 e.2).toList.tail).flatMap ('\n' :: ·) := by
  have hrow : ∀ e : String × Word, (row d.width e.1 e.2).toList =
      '\n' :: (row d.width e.1 e.2).toList.tail := by
    intro e
    simp [row]
  simp only [text, names, String.toList_append, String.toList_join, List.flatMap_map, List.length_map]
  congr 1
  exact List.flatMap_congr fun e _ => hrow e

/-- Whatever definitions a dictionary is made by, its names stand in it once each, in ascending order
of their bytes, and do not depend on the order of the definitions. Its listing gives their number and
then, in that order, a row for each, with the latest definition and the effects in one column. -/
theorem listing_of_history (history : List (String × Word)) :
    let d := empty.insertAll history
    (∀ name, d.names.count name = if name ∈ history.map Prod.fst then 1 else 0) ∧
    d.names.Pairwise (fun a b => utf8 a < utf8 b) ∧
    (∀ other, other.Perm history → (empty.insertAll other).names = d.names) ∧
    ∃ rows : List (List Char),
      d.text.toList = (toString d.names.length ++ " words defined.\n").toList ++
        rows.flatMap ('\n' :: ·) ∧
      d.names.Forall₂ (fun name row => ∃ w, history.reverse.lookup name = some w ∧
        Shows ((d.names.map String.utf8ByteSize).max?.getD 0) name w row) rows := by
  intro d
  have hsorted : ∀ history, (empty.insertAll history).Sorted := Sorted.insertAll List.Pairwise.nil
  have hnames : ∀ history name,
      name ∈ (empty.insertAll history).names ↔ name ∈ history.map Prod.fst := by
    intro history name
    rw [mem_names_insertAll]
    exact or_iff_left List.not_mem_nil
  refine ⟨fun name => ?_, hsorted history, fun other hperm => ?_, _, toList_text d, ?_⟩
  · rw [(hsorted history).nodup.count]
    simp only [hnames]
  · refine (hsorted other).names_eq (hsorted history) fun name => ?_
    rw [hnames, hnames, (hperm.map Prod.fst).mem_iff]
  · rw [← width_eq, names, List.forall₂_map_left_iff, List.forall₂_map_right_iff, List.forall₂_same]
    rintro ⟨name, w⟩ he
    refine ⟨w, ?_, shows_row (length_le_width (List.mem_map_of_mem he)) w⟩
    have hget := (hsorted history).get?_of_mem he
    rw [get?_insertAll] at hget
    simpa [get?, empty, findEntry] using hget

/-- A redefinition and another order of definitions; the shorter name has the more bytes. -/
theorem listing_of_history_reordered :
    let first := Word.compound "ελ" none []
    let second := Word.compound "ελ" none [.call 1 "add"]
    let add := Word.compound "add" none []
    [("ελ", second), ("add", add), ("ελ", first)].Perm
      [("ελ", first), ("ελ", second), ("add", add)] ∧
    (empty.insertAll [("ελ", second), ("add", add), ("ελ", first)]).names =
      (empty.insertAll [("ελ", first), ("ελ", second), ("add", add)]).names := by
  intro first second add
  have hperm : [("ελ", second), ("add", add), ("ελ", first)].Perm
      [("ελ", first), ("ελ", second), ("add", add)] := by decide +kernel
  obtain ⟨-, -, hnames, -⟩ := listing_of_history [("ελ", first), ("ελ", second), ("add", add)]
  exact ⟨hperm, hnames _ hperm⟩

example :
    (empty.insertAll [("ελ", .compound "ελ" none []), ("add", .compound "add" none []),
      ("ten", .primitive ⟨"ten", .number 10, "Push ten.", "-- n"⟩),
      ("ελ", .compound "ελ" (some .empty) [])]).text =
      "3 words defined.\n\nadd   \nten   ( -- n )  --  Push ten.\nελ    ( -- )" := by decide +kernel

end Concatenative.Dictionary
