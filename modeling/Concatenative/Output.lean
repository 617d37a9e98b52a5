set_option autoImplicit false

namespace Concatenative

/-- Where printed text goes. What becomes of a text can depend on all that was handed over before
it: a sink may take a part of a text only, and may take the next one whole again. -/
structure Sink where
  /-- What has arrived. -/
  written : String
  /-- The texts handed over, latest first. -/
  history : List String
  /-- What arrives of a text after a history, and whether the sink reports success. -/
  respond : List String → String → String × Bool

namespace Sink

def hand (k : Sink) (text : String) : Sink × Bool :=
  let (arrived, success) := k.respond k.history text
  ({ k with written := k.written ++ arrived, history := text :: k.history }, success)

def unlimited : Sink := ⟨"", [], fun _ text => (text, true)⟩

/-- A sink with a state and a step for each text. -/
def ofSteps {State : Type} (step : State → String → State × String × Bool) (start : State) :
    Sink where
  written := ""
  history := []
  respond history text :=
    (step (history.foldr (fun earlier state => (step state earlier).1) start) text).2

end Sink

/-- An output that holds a bounded number of bytes, and may fail to pass on what it holds. -/
structure Output where
  written : String
  limit : Option Nat
  flushFails : Bool
  deriving DecidableEq, Repr

namespace Output

def fits (o : Output) (text : String) : Bool :=
  o.limit.all fun n => (o.written ++ text).utf8ByteSize ≤ n

def write (o : Output) (text : String) : Output × String × Bool :=
  if o.fits text then ({ o with written := o.written ++ text }, text, !o.flushFails)
  else (o, "", false)

instance : Coe Output Sink := ⟨Sink.ofSteps write⟩

end Output
end Concatenative
