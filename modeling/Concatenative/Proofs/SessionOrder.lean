import Concatenative.Proofs.Invariants
set_option autoImplicit false

namespace Concatenative

/-- An order on sessions in which nothing that an action does to a session leads down. -/
structure Session.Rising (le : Session → Session → Prop) : Prop where
  refl : ∀ s, le s s
  trans : ∀ {s₁ s₂ s₃}, le s₁ s₂ → le s₂ s₃ → le s₁ s₃
  stack : ∀ s stack, le s { s with stack }
  trail : ∀ s trail, le s { s with trail }
  write : ∀ s text, le s { s with output := (s.output.hand text).1 }
  define : ∀ s name effect body,
    le s { s with dictionary := s.dictionary.define (.compound name effect body) }

def Session.above (le : Session → Session → Prop) : Invariance Session where
  value _ := True
  code _ := True
  holds := le

def Action.Rises {α : Type} (le : Session → Session → Prop) (Q : α → Prop) (x : Action α) : Prop :=
  (Session.above le).Keeps Q x

namespace Session.Rising

variable {le : Session → Session → Prop} {α : Type} {Q : α → Prop} {x : Action α}

theorem rises (h : Rising le) (hx : ∀ s, (x s).Within (le s) Q) : x.Rises le Q := by
  intro before s hs
  have hr := hx s
  cases hc : x s with
  | value a s' =>
    rw [hc] at hr
    exact ⟨hr.1, h.trans hs hr.2⟩
  | failure e s' =>
    rw [hc] at hr
    exact h.trans hs hr
  | paused why => trivial

theorem within (h : Rising le) (hx : x.Rises le Q) (s : Session) : (x s).Within (le s) Q :=
  hx s s (h.refl s)

theorem lawful (h : Rising le) : (above le).Lawful where
  integer _ := trivial
  boolean _ := trivial
  failure _ := trivial
  quotation _ := trivial
  code_push _ := ⟨trivial, trivial⟩
  code_call _ := trivial
  parse _ := trivial
  pop hs _ := ⟨trivial, h.trans hs (h.stack _ _)⟩
  push hs _ := h.trans hs (h.stack _ _)
  clear hs := h.trans hs (h.stack _ _)
  trail trail hs := h.trans hs (h.trail _ trail)
  write text hs := h.trans hs (h.write _ text)
  define hs _ := h.trans hs (h.define _ _ _ _)
  body _ _ _ := trivial

theorem exec (h : Rising le) (depth : Nat) (code : Code) :
    (Action.exec depth code).Rises le fun _ => True := h.lawful.regime.exec depth code trivial

end Session.Rising

end Concatenative
