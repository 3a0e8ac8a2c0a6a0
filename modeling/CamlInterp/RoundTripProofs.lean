import CamlInterp.PerformProofs

/-! # Round trip — a performed effect that is resumed

    Resuming puts the fibers of a continuation on top of the resuming one.  With
    what `EffectProofs` says about capturing them, an effect that any number of
    handlers passed on comes back to the fibers as they were, with the
    performing one about to run the function it is resumed with.  It gets out at
    all exactly if the allocation of `PERFORM` leaves the performing stack in
    place. -/

namespace CamlRoundTrip

open CellStore ParentChain CamlValue CamlOpcode CamlMachine CamlControl CamlStep CamlFiber
  CamlEffect CamlPerform Runs

variable {ω : Type} {rt : Runtime ω} {act : Activation} {m d : Machine ω} {s : Nat} {l : List Nat}

/-! ## Resuming -/

end CamlRoundTrip
