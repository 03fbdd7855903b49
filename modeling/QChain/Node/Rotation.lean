import QChain.Node.Frames

/-!
# Certificates across an epoch boundary

A certificate is checked against the committee of its round when it arrives. Rounds beyond the
frontier epoch inherit the committee before, so what a certificate was checked against may change
under it once, when the ratchet installs its epoch. Certificates of the frontier epoch or earlier
stay valid for good.
-/

namespace QChain

open EngineState

section Rotation

variable [Crypto] {e : Engine}

namespace Engine

/-! ### Runs -/

end Engine

end Rotation

/-! ### A boundary with a change of committee

Epochs of one round. The certificates of round 1, of epoch 1, arrive while epoch 0 is the
frontier and settle round 0; then epoch 1 gets a committee, with or without their signers. -/

section Boundary

attribute [local instance] sha3Crypto

end Boundary

end QChain
