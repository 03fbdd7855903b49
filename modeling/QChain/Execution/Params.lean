import QChain.Execution.Account

/-!
# Economic parameters and the dynamic fee

The parameters that governance changes and the state of the dynamic base fee
(`qchain-execution/src/params.rs`), each in an account of its own. Both read the formats of
earlier versions.
-/

namespace QChain

/-- `BASE_FEE_PER_BYTE_UNITS`. -/
def baseFeePerByteUnits : U64 := 180

/-- `DUST_THRESHOLD_UNITS`. -/
def dustThresholdUnits : U64 := 1000000

/-- `FEE_TARGET_BYTES_PER_ROUND`. -/
def feeTargetBytesPerRound : U64 := 500000

/-- `FEE_ADJUST_DENOMINATOR`. -/
def feeAdjustDenominator : ℕ := 8

/-- `FEE_MIN_BASE_FEE_PER_BYTE`. -/
def feeMinBaseFeePerByte : U64 := baseFeePerByteUnits

/-- `MAX_BASE_FEE_PER_BYTE`. -/
def maxBaseFeePerByte : U64 := 1000000000

/-- `MAX_GAS_PRICE_PER_FUEL`. -/
def maxGasPricePerFuel : U64 := 1000000000

/-- `DEFAULT_EMISSION_APR_BPS`. -/
def defaultEmissionAprBps : UInt16 := 1200

/-- `MAX_EMISSION_APR_BPS`. -/
def maxEmissionAprBps : UInt16 := 5000

/-- `ROUNDS_PER_YEAR`. -/
def roundsPerYear : ℕ := 63072000

/-- `EMISSION_PRECISION`. -/
def emissionPrecision : ℕ := 1000000000000

/-- `emission_for_rounds`: the whole units to mint for a run of rounds, and the new carry. -/
def emissionForRounds (totalStaked : U64) (aprBps : UInt16) (rounds : U64) (carry : U128) :
    U64 × U128 :=
  let perYear : U128 := Word.clamp (totalStaked * aprBps.toNat)
  let forRounds : U128 := Word.clamp (perYear * rounds)
  let scaled : U128 := Word.clamp (forRounds * emissionPrecision)
  let totalFp : U128 := Word.clamp (carry + scaled / (10000 * roundsPerYear))
  let whole : U64 := Word.clamp (totalFp / emissionPrecision)
  (whole, Word.ofNat (totalFp - whole * emissionPrecision))

/-! ### The fee state -/

/-- `FeeState`. -/
structure FeeState where
  epochRound : U64
  epochBytes : U64
  emissionCarry : U128
  deriving DecidableEq

namespace FeeState

instance : Borsh FeeState :=
  Borsh.iso (fun f => (f.epochRound, f.epochBytes, f.emissionCarry))
    fun (epochRound, epochBytes, emissionCarry) => ⟨epochRound, epochBytes, emissionCarry⟩

instance : LawfulBorsh FeeState := Borsh.lawful_iso

/-- The format of 16 bytes, without the carry. -/
def decodeLegacy : Decoder FeeState :=
  (Borsh.decode : Decoder (U64 × U64)).map fun (epochRound, epochBytes) =>
    ⟨epochRound, epochBytes, 0⟩

/-- `FeeState::read_or_legacy`. -/
def readOrLegacy (data : List UInt8) : Option FeeState :=
  (Borsh.fromSlice data).or (decodeLegacy.all data)

end FeeState

/-- `next_base_fee`: up or down by at most an eighth, by how far a round's bytes are from the
target. -/
def nextBaseFee (current committedBytes target : U64) : U64 :=
  if (target : ℕ) = 0 then
    max current feeMinBaseFeePerByte
  else
    let next : U128 :=
      if target < committedBytes then
        let delta := max (current * (committedBytes - target) / target / feeAdjustDenominator) 1
        Word.clamp (current + delta)
      else
        Word.ofNat (current - current * (target - committedBytes) / target / feeAdjustDenominator)
    let next : U64 := Word.clamp next
    if next < feeMinBaseFeePerByte then feeMinBaseFeePerByte
    else if maxBaseFeePerByte < next then maxBaseFeePerByte
    else next

/-- The loop of `rolled_base_fee` over empty rounds. -/
def decayBaseFee (target : U64) : ℕ → U64 → U64
  | 0, fee => fee
  | emptyRounds + 1, fee =>
    if feeMinBaseFeePerByte < fee then decayBaseFee target emptyRounds (nextBaseFee fee 0 target)
    else fee

/-- `rolled_base_fee`: the base fee at a later round than the one last recorded. -/
def rolledBaseFee (base epochRound epochBytes currentRound target : U64) : U64 :=
  if currentRound ≤ epochRound then
    base
  else
    decayBaseFee target (currentRound - epochRound - 1) (nextBaseFee base epochBytes target)

/-! ### The parameters -/

/-- `EconomicParams`. -/
structure EconomicParams where
  baseFeePerByte : U64
  dustThreshold : U64
  gasPricePerFuel : U64
  stakingCommissionBps : UInt16
  emissionAprBps : UInt16
  governanceProposalDeposit : U64
  deriving DecidableEq

namespace EconomicParams

instance : Borsh EconomicParams :=
  Borsh.iso
    (fun p => (p.baseFeePerByte, p.dustThreshold, p.gasPricePerFuel, p.stakingCommissionBps,
      p.emissionAprBps, p.governanceProposalDeposit))
    fun (baseFeePerByte, dustThreshold, gasPricePerFuel, stakingCommissionBps, emissionAprBps,
      governanceProposalDeposit) =>
      ⟨baseFeePerByte, dustThreshold, gasPricePerFuel, stakingCommissionBps, emissionAprBps,
        governanceProposalDeposit⟩

instance : LawfulBorsh EconomicParams := Borsh.lawful_iso

/-- `EconomicParams::default`. -/
def default : EconomicParams where
  baseFeePerByte := baseFeePerByteUnits
  dustThreshold := dustThresholdUnits
  gasPricePerFuel := 1
  stakingCommissionBps := 1000
  emissionAprBps := defaultEmissionAprBps
  governanceProposalDeposit := 0

/-- The format of 28 bytes, without the proposal deposit. -/
def decodeWithoutDeposit : Decoder EconomicParams :=
  (Borsh.decode : Decoder (U64 × U64 × U64 × UInt16 × UInt16)).map
    fun (baseFeePerByte, dustThreshold, gasPricePerFuel, stakingCommissionBps, emissionAprBps) =>
      ⟨baseFeePerByte, dustThreshold, gasPricePerFuel, stakingCommissionBps, emissionAprBps, 0⟩

/-- The format of 26 bytes, without the emission rate. -/
def decodeWithoutEmission : Decoder EconomicParams :=
  (Borsh.decode : Decoder (U64 × U64 × U64 × UInt16)).map
    fun (baseFeePerByte, dustThreshold, gasPricePerFuel, stakingCommissionBps) =>
      ⟨baseFeePerByte, dustThreshold, gasPricePerFuel, stakingCommissionBps,
        defaultEmissionAprBps, 0⟩

/-- `EconomicParams::read_or_legacy`. -/
def readOrLegacy (data : List UInt8) : Option EconomicParams :=
  ((Borsh.fromSlice data).or (decodeWithoutDeposit.all data)).or (decodeWithoutEmission.all data)

end EconomicParams

end QChain
