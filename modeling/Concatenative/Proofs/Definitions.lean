import Concatenative.Proofs.Invariants
set_option autoImplicit false

/-!
The dictionary over whole runs. All that a run does to it is to define compound words, one after the
other. To say which ones, runs are compared with runs in which some definitions are barred: such a
run comes to no end if the full run makes one of these definitions, and is the full run if not.
-/
namespace Concatenative

namespace Action

/-- Takes the body, the effect if there is one, and the name of a word, and leaves it to `bind` to
define it. -/
def bindWith (bind : Word → Action Unit) : Action Unit :=
  popQuotation >>= fun body => Primitive.popEffect? >>= fun effect => popSymbol >>= fun name =>
    bind (.compound name effect body)

def meaningWith (bind : Word → Action Unit) (call : String → Action Unit) : Meaning → Action Unit
  | .primitive p => if p = .define then bindWith bind else p.run (Code.run call)
  | .compound body => body.run call

def callWith (bind : Word → Action Unit) : Nat → String → Action Unit
  | 0, _ => pause .depth
  | depth + 1, name => do
    let word ← lookup name
    meaningWith bind (callWith bind depth) word.meaning

def runTextWith (bind : Word → Action Unit) (depth : Nat) (source : String) : Action Unit :=
  Script.run (Code.run (callWith bind depth)) ((Text.Lines.ofText source).map some)

/-- A definition that is barred pauses the run. -/
def defineUnless (barred : Word → Bool) (w : Word) : Action Unit :=
  if barred w then pause .depth else define w

theorem meaningWith_define (call : String → Action Unit) (m : Meaning) :
    meaningWith define call m = m.run call := by
  cases m with
  | primitive p =>
    by_cases hp : p = .define
    · rw [meaningWith, if_pos hp, hp]
      rfl
    · rw [meaningWith, if_neg hp]
      rfl
  | compound body => rfl

theorem callWith_define : callWith define = call := by
  funext depth
  induction depth with
  | zero => rfl
  | succ depth ih =>
    funext name
    rw [callWith, ih, call]
    simp only [meaningWith_define]

theorem runTextWith_define : runTextWith define = runText := by
  funext depth source
  rw [runTextWith, callWith_define]
  rfl

end Action

/-- The run of the text makes a definition such as `p` says: if such definitions are barred, it does
not come to an end. -/
def Session.Defines (s : Session) (p : Word → Bool) (depth : Nat) (source : String) : Prop :=
  (Action.runTextWith (Action.defineUnless p) depth source s).session? = none

instance (s : Session) (p : Word → Bool) (depth : Nat) (source : String) :
    Decidable (s.Defines p depth source) :=
  decidable_of_iff
    ((Action.runTextWith (Action.defineUnless p) depth source s).session?.isNone = true)
    Option.isNone_iff_eq_none

/-- The second dictionary is the first one after the definitions of some compound words. -/
structure Dictionary.After (d : Dictionary) (ws : List Word) (d' : Dictionary) : Prop where
  compound : ∀ w ∈ ws, ∃ name effect body, w = .compound name effect body
  eq : d' = ws.foldl Dictionary.define d

namespace Dictionary.After

variable {d d' d'' : Dictionary} {ws ws' : List Word}

theorem of_eq (h : d' = d) : d.After [] d' := ⟨by simp, h⟩

theorem trans (h : d.After ws d') (h' : d'.After ws' d'') : d.After (ws ++ ws') d'' := by
  refine ⟨List.forall_mem_append.mpr ⟨h.compound, h'.compound⟩, ?_⟩
  rw [h'.eq, h.eq, List.foldl_append]

theorem names (h : d.After ws d') {name : String} :
    name ∈ d'.names ↔ (∃ w ∈ ws, name = w.name) ∨ name ∈ d.names := by
  rw [h.eq, mem_names_foldl_define]

end Dictionary.After

/-- The first result is that of an action some of whose definitions are barred, the second that of
the full action. From the dictionary `d` the full one gets by the definitions of some words; the two
are one unless one of these is barred, and else the first one is paused. -/
inductive Result.Barred {α : Type} (barred : Word → Bool) (d : Dictionary) (Q : α → α → Prop) :
    Result α → Result α → Prop where
  | value {ws : List Word} {a b : α} {s : Session} : d.After ws s.dictionary →
    (∀ w ∈ ws, barred w = false) → Q a b → Barred barred d Q (.value a s) (.value b s)
  | failure {ws : List Word} {e : Error} {s : Session} : d.After ws s.dictionary →
    (∀ w ∈ ws, barred w = false) → Barred barred d Q (.failure e s) (.failure e s)
  | pausedValue {ws : List Word} {why : Pause} {a b : α} {s : Session} :
    d.After ws s.dictionary → (∃ w ∈ ws, barred w = true) → Q a b →
    Barred barred d Q (.paused why) (.value b s)
  | pausedFailure {ws : List Word} {why : Pause} {e : Error} {s : Session} :
    d.After ws s.dictionary → (∃ w ∈ ws, barred w = true) →
    Barred barred d Q (.paused why) (.failure e s)
  | paused {r : Result α} (why : Pause) : Barred barred d Q r (.paused why)

namespace Result.Barred

variable {α : Type} {barred : Word → Bool} {d d' : Dictionary} {ws : List Word}
  {Q : α → α → Prop} {r r' : Result α}

theorem after (h : r.Barred barred d' Q r') (hd : d.After ws d') (hws : ∀ w ∈ ws, barred w = false) :
    r.Barred barred d Q r' := by
  cases h with
  | value hs hnone hq => exact .value (hd.trans hs) (List.forall_mem_append.mpr ⟨hws, hnone⟩) hq
  | failure hs hnone => exact .failure (hd.trans hs) (List.forall_mem_append.mpr ⟨hws, hnone⟩)
  | pausedValue hs hsome hq =>
    obtain ⟨w, hw, hb⟩ := hsome
    exact .pausedValue (hd.trans hs) ⟨w, List.mem_append_right _ hw, hb⟩ hq
  | pausedFailure hs hsome =>
    obtain ⟨w, hw, hb⟩ := hsome
    exact .pausedFailure (hd.trans hs) ⟨w, List.mem_append_right _ hw, hb⟩
  | paused why => exact .paused why

theorem afterBarred (h : r.Barred barred d' Q r') (hd : d.After ws d')
    (hws : ∃ w ∈ ws, barred w = true) (why : Pause) :
    (Result.paused why).Barred barred d Q r' := by
  obtain ⟨w, hw, hb⟩ := hws
  have hmem : ∀ ws', ∃ w ∈ ws ++ ws', barred w = true :=
    fun ws' => ⟨w, List.mem_append_left ws' hw, hb⟩
  cases h with
  | value hs _ hq => exact .pausedValue (hd.trans hs) (hmem _) hq
  | failure hs _ => exact .pausedFailure (hd.trans hs) (hmem _)
  | pausedValue hs _ hq => exact .pausedValue (hd.trans hs) (hmem _) hq
  | pausedFailure hs _ => exact .pausedFailure (hd.trans hs) (hmem _)
  | paused why => exact .paused why

end Result.Barred

def Action.Barred {α : Type} (barred : Word → Bool) (Q : α → α → Prop) (x y : Action α) : Prop :=
  ∀ s, (x s).Barred barred s.dictionary Q (y s)

def Dictionary.still : Invariance Dictionary where
  value _ := True
  code _ := True
  holds d s := s.dictionary = d

theorem Dictionary.still_stable : still.Stable where
  integer _ := trivial
  boolean _ := trivial
  failure _ := trivial
  quotation _ := trivial
  code_push _ := ⟨trivial, trivial⟩
  code_call _ := trivial
  parse _ := trivial
  pop h _ := ⟨trivial, h⟩
  push h _ := h
  clear h := h
  trail _ h := h
  write _ h := h
  body _ _ _ := trivial

namespace Action.Barred

variable {barred : Word → Bool} {α β : Type} {Q : α → α → Prop} {P : β → β → Prop}
  {x y : Action α}

theorem bind {f g : α → Action β} (hx : x.Barred barred Q y)
    (hf : ∀ a b, Q a b → (f a).Barred barred P (g b)) : (x >>= f).Barred barred P (y >>= g) := by
  intro s
  have hr := hx s
  simp only [bind_apply]
  generalize x s = r at hr ⊢
  generalize y s = r' at hr ⊢
  cases hr with
  | value hs hnone hq => exact (hf _ _ hq _).after hs hnone
  | failure hs hnone => exact .failure hs hnone
  | pausedValue hs hsome hq => exact (hf _ _ hq _).afterBarred hs hsome _
  | pausedFailure hs hsome => exact .pausedFailure hs hsome
  | paused why => exact .paused why

theorem traced (hx : x.Barred barred Q y) (word : String) (line : Nat) :
    (x.traced word line).Barred barred Q (y.traced word line) := by
  intro s
  have hr := hx s
  unfold Action.traced
  generalize x s = r at hr ⊢
  generalize y s = r' at hr ⊢
  cases hr with
  | value hs hnone hq => exact .value hs hnone hq
  | failure hs hnone => exact .failure hs hnone
  | pausedValue hs hsome hq => exact .pausedValue hs hsome hq
  | pausedFailure hs hsome => exact .pausedFailure hs hsome
  | paused why => exact .paused why

theorem attempt {x y : Action Unit} {handler handler' : Error → Action Unit}
    (hx : x.Barred barred (fun _ _ => True) y)
    (hh : ∀ e, (handler e).Barred barred (fun _ _ => True) (handler' e)) :
    (x.attempt handler).Barred barred (fun _ _ => True) (y.attempt handler') := by
  intro s
  have hr := hx s
  show Result.Barred barred s.dictionary _
    (x.rescue (fun e => truncateTrail s.trail.length >>= fun _ => handler e) s)
    (y.rescue (fun e => truncateTrail s.trail.length >>= fun _ => handler' e) s)
  unfold rescue
  generalize x s = r at hr ⊢
  generalize y s = r' at hr ⊢
  cases hr with
  | value hs hnone hq => exact .value hs hnone hq
  | @failure ws e t hs hnone =>
    exact (hh e { t with trail := t.trail.take s.trail.length }).after hs hnone
  | pausedValue hs hsome hq => exact .pausedValue (a := ()) hs hsome hq
  | @pausedFailure ws why e t hs hsome =>
    exact (hh e { t with trail := t.trail.take s.trail.length }).afterBarred hs hsome why
  | paused why => exact .paused why

theorem of_keeps {P : α → Prop} (hx : Dictionary.still.Keeps P x) (hq : ∀ a, Q a a) :
    x.Barred barred Q x := by
  intro s
  have hr := hx s.dictionary s rfl
  cases hc : x s with
  | value a t =>
    rw [hc] at hr
    exact .value (.of_eq hr.2) (by simp) (hq a)
  | failure e t =>
    rw [hc] at hr
    exact .failure (.of_eq hr) (by simp)
  | paused why => exact .paused why

theorem define (w : Word) (hw : ∃ name effect body, w = .compound name effect body) :
    (defineUnless barred w).Barred barred (fun _ _ => True) (Action.define w) := by
  intro s
  have hafter : s.dictionary.After [w] (s.dictionary.define w) := ⟨by simpa using hw, rfl⟩
  cases hb : barred w with
  | true =>
    rw [defineUnless, if_pos hb]
    exact .pausedValue (a := ()) hafter ⟨w, List.mem_singleton_self w, hb⟩ trivial
  | false =>
    rw [defineUnless, if_neg (by simp [hb])]
    exact .value hafter (by simpa using hb) trivial

end Action.Barred

namespace Definitions

/-- A run some of whose definitions are barred beside the full run. Here no primitive word defines:
the one that does is treated apart. -/
def simulation (barred : Word → Bool) : Simulation where
  value := Eq
  code := Eq
  line := Eq
  name _ := True
  primitive p := p ≠ .define
  holds Q x y := x.Barred barred Q y

variable (barred : Word → Bool)

open Dictionary (still_stable)

theorem basic : (simulation barred).Basic where
  alike := by
    rintro v _ rfl
    exact .refl (fun _ _ => trivial) fun _ _ => rfl
  yield hab s := .value (.of_eq rfl) (by simp) hab
  bind hx hf := hx.bind hf
  fail _ s := .failure (.of_eq rfl) (by simp)
  pop := .of_keeps still_stable.popValue fun _ => rfl

theorem paired (code : Code) : (simulation barred).Paired code code := by
  match code with
  | [] => exact .nil
  | .push line v :: rest => exact .push rfl rfl
  | .call line name :: rest => exact .call rfl trivial rfl

theorem lawful : (simulation barred).Open where
  toBasic := basic barred
  integer _ := rfl
  boolean _ := rfl
  failure _ := rfl
  text h := congrArg Value.text h
  paired := by
    rintro code _ rfl
    exact paired barred code
  pause why _ := .paused why
  traced := by
    rintro x y word l _ rfl hx
    exact hx.traced word l
  peek := .of_keeps still_stable.peek fun _ => rfl
  push := by
    rintro v _ rfl
    exact .of_keeps (P := fun _ => True) (fun _ _ h => ⟨trivial, h⟩) fun _ => trivial
  bindBody hp := absurd rfl hp
  see _ := .of_keeps (still_stable.lookup _) fun _ => rfl
  print text := .of_keeps (still_stable.print text) fun _ => trivial
  clear _ := .of_keeps (P := fun _ => True) (fun _ _ h => ⟨trivial, h⟩) fun _ => trivial
  depth _ := .of_keeps (P := fun _ => True) (fun _ _ h => ⟨trivial, h⟩) fun _ => trivial
  listWords _ := .of_keeps (fun i s h => still_stable.print _ i s h) fun _ => trivial
  showStack _ := .of_keeps (fun i s h => still_stable.print _ i s h) fun _ => trivial
  attempt _ _ _ _ _ hx hh := hx.attempt hh
  findFile _ _ := .of_keeps (fun i s h => Invariance.Keeps.firstFile _ i s h) fun _ => rfl
  limit _ hf s := hf s.statementLimit s
  parse _ _ _ _ _ := rfl

theorem bindWith : (simulation barred).does (Action.bindWith (Action.defineUnless barred))
    (Action.bindWith Action.define) := by
  have h := basic barred
  have heffect : (simulation barred).holds Eq Primitive.popEffect? Primitive.popEffect? :=
    .of_keeps still_stable.popEffect fun _ => rfl
  refine h.bind h.popQuotation ?_
  rintro body _ rfl
  refine h.bind heffect ?_
  rintro effect _ rfl
  refine h.bind h.popSymbol ?_
  rintro name _ ⟨rfl, -⟩
  exact .define _ ⟨name, effect, body, rfl⟩

theorem callWith (depth : Nat) (name : String) :
    (simulation barred).does (Action.callWith (Action.defineUnless barred) depth name)
      (Action.callWith Action.define depth name) := by
  have h := lawful barred
  induction depth generalizing name with
  | zero => exact h.pause _
  | succ depth ih =>
    have hlookup : (simulation barred).holds Eq (Action.lookup name) (Action.lookup name) :=
      .of_keeps (still_stable.lookup name) fun _ => rfl
    refine h.bind hlookup ?_
    rintro word _ rfl
    have hcode := h.code fun name _ => ih name
    generalize word.meaning = m
    cases m with
    | primitive p =>
      by_cases hp : p = .define
      · simp only [Action.meaningWith, hp, if_true]
        exact bindWith barred
      · simp only [Action.meaningWith, hp, if_false]
        exact h.primitive hcode p hp
    | compound body => exact hcode body body rfl

theorem runText (depth : Nat) (source : String) (s : Session) :
    (Action.runTextWith (Action.defineUnless barred) depth source s).Barred barred s.dictionary
      (fun _ _ => True) (Action.runText depth source s) := by
  have h := lawful barred
  rw [← Action.runTextWith_define]
  exact h.script (by simp [simulation]) (h.code fun name _ => callWith barred depth name) _ s

end Definitions

theorem Session.exists_definitions {s t : Session} {depth : Nat} {source : String}
    (h : (Action.runText depth source s).session? = some t) (p : Word → Bool) :
    ∃ ws, s.dictionary.After ws t.dictionary ∧
      (s.Defines p depth source ↔ ∃ w ∈ ws, p w = true) := by
  have hr := Definitions.runText p depth source s
  unfold Session.Defines
  generalize Action.runTextWith (Action.defineUnless p) depth source s = r at hr ⊢
  generalize Action.runText depth source s = r' at hr h
  cases hr with
  | @value ws _ _ _ hs hnone _ =>
    cases h
    exact ⟨ws, hs, by simpa [Result.session?] using hnone⟩
  | @failure ws _ _ hs hnone =>
    cases h
    exact ⟨ws, hs, by simpa [Result.session?] using hnone⟩
  | @pausedValue ws _ _ _ _ hs hsome _ =>
    cases h
    exact ⟨ws, hs, by simpa [Result.session?] using hsome⟩
  | @pausedFailure ws _ _ _ hs hsome =>
    cases h
    exact ⟨ws, hs, by simpa [Result.session?] using hsome⟩
  | paused why => cases h

theorem Session.Leads.after {s t : Session} (h : s.Leads t) :
    ∃ ws, s.dictionary.After ws t.dictionary := by
  induction h with
  | refl => exact ⟨[], .of_eq rfl⟩
  | text depth source _ ht ih =>
    obtain ⟨ws, hws⟩ := ih
    obtain ⟨ws', hws', -⟩ := Session.exists_definitions ht fun _ => false
    exact ⟨ws ++ ws', hws.trans hws'⟩
  | files _ _ ih => exact ih

namespace Dictionary

/-- What each entry of a dictionary is like. A primitive word is as it was introduced, and under the
name it was introduced with; it has no other name. -/
structure Proper (d : Dictionary) : Prop where
  name : ∀ e ∈ d.entries, e.1 = e.2.name
  primitive : ∀ e ∈ d.entries, ∀ p, e.2.meaning = .primitive p → primitives.get? e.1 = some e.2
  nameOnly : ∀ e ∈ d.entries, ∀ entry ∈ Primitive.entries,
    e.2.meaning = .primitive entry.primitive → e.1 = entry.name
  compound : ∀ e ∈ d.entries, ∀ body, e.2.meaning = .compound body → e.2.description = ""

theorem eq_of_primitive : ∀ a ∈ Primitive.entries, ∀ b ∈ Primitive.entries,
    a.primitive = b.primitive → a.name = b.name := by
  decide +kernel

theorem After.proper {d : Dictionary} {ws : List Word} (h : primitives.After ws d) : d.Proper := by
  have hentry : ∀ e ∈ d.entries, (∃ name effect body, e = (name, .compound name effect body)) ∨
      ∃ entry ∈ Primitive.entries, e = (entry.name, .primitive entry) := by
    intro e he
    rw [h.eq] at he
    rcases mem_foldl_define he with ⟨w, hw, rfl⟩ | he
    · obtain ⟨name, effect, body, rfl⟩ := h.compound w hw
      exact .inl ⟨name, effect, body, rfl⟩
    · exact .inr (mem_primitives he)
  refine ⟨?_, ?_, ?_, ?_⟩
  · intro e he
    rcases hentry e he with ⟨name, effect, body, rfl⟩ | ⟨entry, -, rfl⟩ <;> rfl
  · intro e he p hm
    rcases hentry e he with ⟨name, effect, body, rfl⟩ | ⟨entry, hentry, rfl⟩
    · cases hm
    · exact get?_primitives hentry
  · intro e he other ho hm
    rcases hentry e he with ⟨name, effect, body, rfl⟩ | ⟨entry, hentry, rfl⟩
    · cases hm
    · exact eq_of_primitive entry hentry other ho (Meaning.primitive.inj hm)
  · intro e he body hm
    rcases hentry e he with ⟨name, effect, body', rfl⟩ | ⟨entry, -, rfl⟩
    · rfl
    · cases hm

end Dictionary

/-- In every session that is reached from the primitive words the dictionary is proper. A name that is
defined stays defined, be it that it was defined before a text is run or by its run, and a run that
defines nothing leaves the dictionary as it was. -/
theorem Session.Leads.dictionary_proper {settings : Settings} {files : Files} {output : Sink}
    {s : Session} (h : (Session.start settings files .primitives output).Leads s) :
    s.dictionary.Proper ∧
    (∀ t, s.Leads t → s.dictionary.names ⊆ t.dictionary.names) ∧
    ∀ depth source t, (Action.runText depth source s).session? = some t →
      (∀ name, s.Defines (fun w => w.name = name) depth source → name ∈ t.dictionary.names) ∧
      (¬ s.Defines (fun _ => true) depth source → t.dictionary = s.dictionary) := by
  refine ⟨?_, ?_, fun depth source t ht => ⟨fun name hd => ?_, fun hd => ?_⟩⟩
  · obtain ⟨ws, hws⟩ := h.after
    exact hws.proper
  · intro t ht name hn
    obtain ⟨ws, hws⟩ := ht.after
    exact hws.names.mpr (.inr hn)
  · obtain ⟨ws, hws, hiff⟩ := Session.exists_definitions ht fun w => w.name = name
    obtain ⟨w, hw, hname⟩ := hiff.mp hd
    exact hws.names.mpr (.inl ⟨w, hw, (of_decide_eq_true hname).symm⟩)
  · obtain ⟨ws, hws, hiff⟩ := Session.exists_definitions ht fun _ => true
    have hnil : ws = [] := by
      rw [hiff] at hd
      simpa [List.eq_nil_iff_forall_not_mem] using hd
    rw [hws.eq, hnil]
    rfl

/-- A word is defined in an attempt that fails, and the word that defines is redefined there. What
makes it fail is that the output has no room for the text. -/
theorem Session.Leads.dictionary_proper_redefined :
    let output : Output := ⟨"", some 3, false⟩
    let start := Session.start .standard (fun _ => none) .primitives output
    let first := "[ twice: [ dup + ] ; ;: [ drop drop ] ; \"four\" print ] ignore-errors 3 twice"
    let second := "other: [ 1 ] ; ( a -- ) +"
    ∃ s t, ((Action.runText 3 first start).session? = some s ∧
        start.Defines (fun w => w.name = "twice") 3 first ∧ "twice" ∈ s.dictionary.names) ∧
      ((Action.runText 3 second s).session? = some t ∧
        ¬ s.Defines (fun _ => true) 3 second ∧ t.dictionary = s.dictionary) ∧
      t.dictionary.Proper := by
  intro output start first second
  have hruns : ((Action.runText 3 first start).session?.bind fun s =>
      (Action.runText 3 second s).session?.bind fun _ =>
        (Action.runTextWith (Action.defineUnless fun _ => true) 3 second s).session?).isSome =
          true := by
    decide +kernel
  have hfirst : start.Defines (fun w => w.name = "twice") 3 first := by decide +kernel
  simp only [Option.isSome_iff_exists, Option.bind_eq_some_iff] at hruns
  obtain ⟨u, s, hs, t, ht, hu⟩ := hruns
  have hsecond : ¬ s.Defines (fun _ => true) 3 second := by simp [Session.Defines, hu]
  have hleads : start.Leads s := .text 3 first .refl hs
  exact ⟨s, t, ⟨hs, hfirst, ((dictionary_proper .refl).2.2 3 first s hs).1 "twice" hfirst⟩,
    ⟨ht, hsecond, ((dictionary_proper hleads).2.2 3 second t ht).2 hsecond⟩,
    (dictionary_proper (.text 3 second hleads ht)).1⟩

end Concatenative
