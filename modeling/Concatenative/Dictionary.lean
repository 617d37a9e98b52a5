import Concatenative.Primitive
import Concatenative.Parser
set_option autoImplicit false

namespace Concatenative

inductive Meaning where
  | primitive (p : Primitive)
  | compound (body : Code)
  deriving DecidableEq

structure Word where
  name : String
  effect : Option Effect
  description : String
  meaning : Meaning
  deriving DecidableEq

namespace Word

def compound (name : String) (effect : Option Effect) (body : Code) : Word :=
  ⟨name, effect, "", .compound body⟩

/-- A primitive word; a signature that is no effect is left out. -/
def primitive (entry : PrimitiveEntry) : Word :=
  { name := entry.name
    effect := (Effect.parse ("( " ++ entry.signature ++ " )")).toOption
    description := entry.description
    meaning := .primitive entry.primitive }

def pieces (w : Word) : List String :=
  let header := (w.name ++ ":") :: (w.effect.map Effect.pieces).getD []
  match w.meaning with
  | .primitive _ => header ++ ["<native>"]
  | .compound body => header ++ "[" :: Instruction.piecesList body ++ ["]", ";"]

def text (w : Word) : String := " ".intercalate w.pieces

end Word

/-- Words under their names, in the order of the names' bytes. -/
structure Dictionary where
  entries : List (String × Word)
  deriving DecidableEq

namespace Dictionary

def empty : Dictionary := ⟨[]⟩

def findEntry (name : String) : List (String × Word) → Option Word
  | [] => none
  | (n, w) :: rest => if name = n then some w else findEntry name rest

def get? (d : Dictionary) (name : String) : Option Word := findEntry name d.entries

def utf8 (s : String) : List UInt8 := s.toByteArray.data.toList

def insertEntry (name : String) (w : Word) : List (String × Word) → List (String × Word)
  | [] => [(name, w)]
  | (n, v) :: rest =>
    if name = n then (name, w) :: rest
    else if utf8 name < utf8 n then (name, w) :: (n, v) :: rest
    else (n, v) :: insertEntry name w rest

def insert (d : Dictionary) (name : String) (w : Word) : Dictionary :=
  ⟨insertEntry name w d.entries⟩

def define (d : Dictionary) (w : Word) : Dictionary := d.insert w.name w

def names (d : Dictionary) : List String := d.entries.map Prod.fst

def primitives : Dictionary :=
  Primitive.entries.foldl (fun d entry => d.define (.primitive entry)) empty

def width (d : Dictionary) : Nat :=
  (d.names.map String.utf8ByteSize).foldl max 0

def column (width : Nat) (name : String) : String :=
  name ++ String.ofList (List.replicate (width - name.length) ' ')

def row (width : Nat) (name : String) (w : Word) : String :=
  "\n" ++ column width name ++ "  " ++ (w.effect.map Effect.text).getD "" ++
    (if w.description = "" then "" else "  --  " ++ w.description)

def text (d : Dictionary) : String :=
  toString d.entries.length ++ " words defined.\n" ++
    String.join (d.entries.map fun (name, w) => row d.width name w)

theorem findEntry_insertEntry (name other : String) (w : Word) (es : List (String × Word)) :
    findEntry other (insertEntry name w es) =
      if other = name then some w else findEntry other es := by
  induction es with
  | nil => simp [insertEntry, findEntry]
  | cons e es ih => grind [insertEntry, findEntry]

theorem mem_of_findEntry {name : String} {w : Word} {es : List (String × Word)}
    (h : findEntry name es = some w) : (name, w) ∈ es := by
  induction es with
  | nil => cases h
  | cons e es ih =>
    unfold findEntry at h
    split at h
    · next hn =>
      cases h
      simp [hn]
    · exact List.mem_cons_of_mem e (ih h)

theorem mem_insertEntry {name : String} {w : Word} {es : List (String × Word)} {e : String × Word}
    (h : e ∈ insertEntry name w es) : e = (name, w) ∨ e ∈ es := by
  induction es with
  | nil => simpa [insertEntry] using h
  | cons first es ih => grind [insertEntry]

theorem mem_foldl_define {ws : List Word} {d : Dictionary} {e : String × Word}
    (h : e ∈ (ws.foldl define d).entries) : (∃ w ∈ ws, e = (w.name, w)) ∨ e ∈ d.entries := by
  induction ws generalizing d with
  | nil => exact .inr h
  | cons w ws ih =>
    rcases ih h with ⟨v, hv, he⟩ | he
    · exact .inl ⟨v, List.mem_cons_of_mem w hv, he⟩
    · rcases mem_insertEntry he with he | he
      · exact .inl ⟨w, List.mem_cons_self, he⟩
      · exact .inr he

theorem mem_primitives {e : String × Word} (h : e ∈ primitives.entries) :
    ∃ entry ∈ Primitive.entries, e = (entry.name, .primitive entry) := by
  rw [primitives, ← List.foldl_map] at h
  rcases mem_foldl_define h with ⟨w, hw, rfl⟩ | he
  · obtain ⟨entry, hentry, rfl⟩ := List.mem_map.mp hw
    exact ⟨entry, hentry, rfl⟩
  · cases he

theorem mem_names_insertEntry {n name : String} {w : Word} {es : List (String × Word)} :
    n ∈ (insertEntry name w es).map Prod.fst ↔ n = name ∨ n ∈ es.map Prod.fst := by
  induction es with
  | nil => simp [insertEntry]
  | cons e es ih =>
    simp only [insertEntry]
    split
    · next hn => simp [hn]
    · split
      · simp
      · rw [List.map_cons, List.mem_cons, ih, List.map_cons, List.mem_cons]
        exact or_left_comm

def insertAll (d : Dictionary) (history : List (String × Word)) : Dictionary :=
  history.foldl (fun d (name, w) => d.insert name w) d

theorem insertAll_cons (d : Dictionary) (name : String) (w : Word) (history : List (String × Word)) :
    d.insertAll ((name, w) :: history) = (d.insert name w).insertAll history := rfl

theorem foldl_define (ws : List Word) (d : Dictionary) :
    ws.foldl define d = d.insertAll (ws.map fun w => (w.name, w)) := by
  rw [insertAll, List.foldl_map]
  rfl

theorem mem_names_insertAll {d : Dictionary} {history : List (String × Word)} {n : String} :
    n ∈ (d.insertAll history).names ↔ n ∈ history.map Prod.fst ∨ n ∈ d.names := by
  induction history generalizing d with
  | nil => simp [insertAll]
  | cons e history ih =>
    have he : n ∈ (d.insert e.1 e.2).names ↔ n = e.1 ∨ n ∈ d.names := mem_names_insertEntry
    rw [insertAll_cons, ih, he, List.map_cons, List.mem_cons, or_assoc]
    exact or_left_comm

theorem mem_names_foldl_define {n : String} {ws : List Word} {d : Dictionary} :
    n ∈ (ws.foldl define d).names ↔ (∃ w ∈ ws, n = w.name) ∨ n ∈ d.names := by
  rw [foldl_define, mem_names_insertAll, List.map_map]
  simp [eq_comm]

@[simp] theorem get?_insert (d : Dictionary) (name other : String) (w : Word) :
    (d.insert name w).get? other = if other = name then some w else d.get? other :=
  findEntry_insertEntry name other w d.entries

theorem get?_foldl_define_of_ne {ws : List Word} {name : String} (h : ∀ w ∈ ws, w.name ≠ name)
    (d : Dictionary) : (ws.foldl define d).get? name = d.get? name := by
  induction ws generalizing d with
  | nil => rfl
  | cons w ws ih =>
    obtain ⟨hw, hws⟩ := List.forall_mem_cons.mp h
    rw [List.foldl_cons, ih hws, define, get?_insert, if_neg hw.symm]

theorem get?_foldl_define {ws : List Word} (h : (ws.map Word.name).Nodup) {w : Word} (hw : w ∈ ws)
    (d : Dictionary) : (ws.foldl define d).get? w.name = some w := by
  induction ws generalizing d with
  | nil => cases hw
  | cons v ws ih =>
    obtain ⟨hv, hws⟩ := List.nodup_cons.mp h
    rcases List.mem_cons.mp hw with rfl | hw
    · have hne : ∀ u ∈ ws, u.name ≠ w.name := fun u hu he => hv (he ▸ List.mem_map_of_mem hu)
      rw [List.foldl_cons, get?_foldl_define_of_ne hne, define, get?_insert, if_pos rfl]
    · exact ih hws hw _

theorem get?_primitives {entry : PrimitiveEntry} (h : entry ∈ Primitive.entries) :
    primitives.get? entry.name = some (.primitive entry) := by
  have hnames : ((Primitive.entries.map Word.primitive).map Word.name).Nodup := by
    rw [List.map_map]
    decide
  rw [primitives, ← List.foldl_map]
  exact get?_foldl_define hnames (List.mem_map_of_mem h) empty

end Dictionary
end Concatenative
