/-
  ShredArb.Paper.Adapter — the law of the constant-product adapter
  (`amm2_quote`, `amm2_apply` and `clmm_quote` of `arb-core/src/adapter.c`).

  `mul_div` multiplies in 128 bits, but the sums around it are taken in 64:
  `rin + fee_adj` and `reserve + amount_in` wrap, and so does `out * 2` in the
  check that a trade stays below HALF the virtual reserve.

  Conventions:
    • reserves in and out are those of the direction,
    • the law is over the naturals; the fee is taken off the amount, rounded down.

  Main results:
    * `amm2Quote_spec` — what a quote is, sums wrapped,
    * `Amm2State.law_of_lt` — the law where the reserve has room for the amount,
    * `adapter_law_iff` — and there only; and when the half check does what it says.
-/
import ShredArb.Paper.Kernel

namespace ShredArb.Paper

/-! ## §1. Applying a swap. -/

/-- `amm2_apply`: the state after the swap, and its output. -/
def amm2Apply (s : Amm2State) (amountIn : UInt64) (dir : UInt8) : Option (Amm2State × UInt64) :=
  (amm2Quote s amountIn dir).map fun ao =>
    if dir = 0 then
      ({ s with reserveX := s.reserveX + amountIn, reserveY := s.reserveY - ao }, ao)
    else
      ({ s with reserveY := s.reserveY + amountIn, reserveX := s.reserveX - ao }, ao)

/-- The reserve that the amount goes into. -/
def Amm2State.rin (s : Amm2State) (dir : UInt8) : UInt64 :=
  if dir = 0 then s.reserveX else s.reserveY

/-- The reserve that pays. -/
def Amm2State.rout (s : Amm2State) (dir : UInt8) : UInt64 :=
  if dir = 0 then s.reserveY else s.reserveX

/-- The amount without its fee. -/
def Amm2State.feeAdj (s : Amm2State) (amountIn : UInt64) : Nat :=
  amountIn.toNat * (10000 - s.feeBps.toNat) / 10000

/-- The law of a quoted swap. -/
structure Law (s : Amm2State) (amountIn : UInt64) (dir : UInt8) (out : UInt64) : Prop where
  quote : out.toNat
    = (s.rout dir).toNat * s.feeAdj amountIn / ((s.rin dir).toNat + s.feeAdj amountIn)
  apply : ∃ s', amm2Apply s amountIn dir = some (s', out) ∧
    (s'.rin dir).toNat = (s.rin dir).toNat + amountIn.toNat ∧
    (s'.rout dir).toNat + out.toNat = (s.rout dir).toNat ∧
    (s.rin dir).toNat * (s.rout dir).toNat ≤ (s'.rin dir).toNat * (s'.rout dir).toNat

/-! ## §2. What a quote is. -/

theorem feeAdj_le (s : Amm2State) (amountIn : UInt64) : s.feeAdj amountIn ≤ amountIn.toNat :=
  Nat.div_le_of_le_mul (by
    rw [Nat.mul_comm 10000]
    exact Nat.mul_le_mul_left _ (Nat.sub_le _ _))

theorem toNat_mulDiv (a b d : UInt64) : (mulDiv a b d).toNat = a.toNat * b.toNat / d.toNat % 2 ^ 64 := by
  unfold mulDiv
  split
  · rename_i hd
    rw [hd]
    show 0 = _ / 0 % _
    rw [Nat.div_zero, Nat.zero_mod]
  · exact UInt64.toNat_ofNat'

theorem toNat_feeAdj (s : Amm2State) (amountIn : UInt64) (hfee : s.feeBps.toUInt64 < amm2FeeDenom) :
    (mulDiv amountIn (amm2FeeDenom - s.feeBps.toUInt64) amm2FeeDenom).toNat = s.feeAdj amountIn := by
  have hsub : (amm2FeeDenom - s.feeBps.toUInt64).toNat = 10000 - s.feeBps.toNat :=
    UInt64.toNat_sub_of_le _ _ (UInt64.le_of_lt hfee)
  have hle := feeAdj_le s amountIn
  have hlt := amountIn.toNat_lt
  rw [toNat_mulDiv, hsub]
  exact Nat.mod_eq_of_lt (Nat.lt_of_le_of_lt hle hlt)

/-- **What a quote is**: the quotient by the wrapped sum, in 64 bits. -/
theorem amm2Quote_spec {s : Amm2State} {amountIn out : UInt64} {dir : UInt8}
    (h : amm2Quote s amountIn dir = some out) :
    out < s.rout dir ∧
      out.toNat = (s.rout dir).toNat * s.feeAdj amountIn
        / (((s.rin dir).toNat + s.feeAdj amountIn) % 2 ^ 64) % 2 ^ 64 := by
  unfold amm2Quote at h
  split at h
  · exact absurd h (by simp)
  · rename_i hok
    split at h
    · exact absurd h (by simp)
    · have hfee : s.feeBps.toUInt64 < amm2FeeDenom :=
        UInt64.not_le.mp fun hge => hok (Or.inr (Or.inr (Or.inr (Or.inr hge))))
      have hadj := toNat_feeAdj s amountIn hfee
      change (if mulDiv amountIn (amm2FeeDenom - s.feeBps.toUInt64) amm2FeeDenom = 0 then none
        else if mulDiv (s.rout dir) _ (s.rin dir + _) = 0 ∨ mulDiv (s.rout dir) _ (s.rin dir + _)
          ≥ s.rout dir then none else some (mulDiv (s.rout dir) _ (s.rin dir + _))) = some out at h
      split at h
      · exact absurd h (by simp)
      · split at h
        · exact absurd h (by simp)
        · rename_i hout
          obtain rfl := Option.some.inj h
          refine ⟨UInt64.not_le.mp fun hge => hout (Or.inr hge), ?_⟩
          rw [toNat_mulDiv, UInt64.toNat_add, hadj]

/-- The product does not fall when no more is paid than the law says. -/
theorem product_le {rin rout f n out : Nat} (hfn : f ≤ n)
    (hout : out = rout * f / (rin + f)) : rin * rout ≤ (rin + n) * (rout - out) := by
  have hpaid : out * (rin + f) ≤ rout * f := by
    rw [hout]
    exact Nat.div_mul_le_self _ _
  have hle : out ≤ rout := by
    rw [hout]
    refine Nat.div_le_of_le_mul ?_
    rw [Nat.mul_comm]
    exact Nat.mul_le_mul_right _ (Nat.le_add_left f rin)
  calc rin * rout = rout * (rin + f) - rout * f := by
        rw [Nat.mul_add, Nat.add_sub_cancel, Nat.mul_comm]
    _ ≤ rout * (rin + f) - out * (rin + f) := Nat.sub_le_sub_left hpaid _
    _ = (rin + f) * (rout - out) := by rw [← Nat.sub_mul, Nat.mul_comm]
    _ ≤ (rin + n) * (rout - out) := Nat.mul_le_mul_right _ (Nat.add_le_add_left hfn rin)

/-! ## §3. The law. -/

/-- What applying a quoted swap does to the reserves, in 64 bits. -/
theorem amm2Apply_spec {s : Amm2State} {amountIn out : UInt64} {dir : UInt8}
    (h : amm2Quote s amountIn dir = some out) :
    ∃ s', amm2Apply s amountIn dir = some (s', out) ∧ s'.rin dir = s.rin dir + amountIn ∧
      s'.rout dir = s.rout dir - out := by
  unfold amm2Apply Amm2State.rin Amm2State.rout
  rw [h]
  split
  · exact ⟨_, rfl, rfl, rfl⟩
  · exact ⟨_, rfl, rfl, rfl⟩

/-- **The law holds** where the reserve has room for the amount. -/
theorem Amm2State.law_of_lt {s : Amm2State} {amountIn out : UInt64} {dir : UInt8}
    (h : amm2Quote s amountIn dir = some out)
    (hroom : (s.rin dir).toNat + amountIn.toNat < 2 ^ 64) : Law s amountIn dir out := by
  obtain ⟨hlt, hout⟩ := amm2Quote_spec h
  have hfee := feeAdj_le s amountIn
  rw [Nat.mod_eq_of_lt (by omega : (s.rin dir).toNat + s.feeAdj amountIn < 2 ^ 64)] at hout
  have hquote : out.toNat
      = (s.rout dir).toNat * s.feeAdj amountIn / ((s.rin dir).toNat + s.feeAdj amountIn) := by
    rw [hout]
    refine Nat.mod_eq_of_lt (Nat.lt_of_le_of_lt ?_ (s.rout dir).toNat_lt)
    refine Nat.div_le_of_le_mul ?_
    rw [Nat.mul_comm]
    exact Nat.mul_le_mul_right _ (Nat.le_add_left _ _)
  obtain ⟨s', happly, hrin, hrout⟩ := amm2Apply_spec h
  have hin : (s'.rin dir).toNat = (s.rin dir).toNat + amountIn.toNat := by
    rw [hrin, UInt64.toNat_add]
    exact Nat.mod_eq_of_lt hroom
  have hle := UInt64.le_iff_toNat_le.mp (UInt64.le_of_lt hlt)
  have hpays : (s'.rout dir).toNat = (s.rout dir).toNat - out.toNat := by
    rw [hrout]
    exact UInt64.toNat_sub_of_le _ _ (UInt64.le_of_lt hlt)
  refine ⟨hquote, s', happly, hin, by omega, ?_⟩
  rw [hin, hpays]
  exact product_le hfee hquote

/-- A reserve that grows by the amount has room for it. -/
theorem Law.lt {s : Amm2State} {amountIn out : UInt64} {dir : UInt8} (h : Law s amountIn dir out) :
    (s.rin dir).toNat + amountIn.toNat < 2 ^ 64 := by
  obtain ⟨s', -, hin, -⟩ := h.apply
  rw [← hin]
  exact (s'.rin dir).toNat_lt

/-! ## §4. Half the virtual reserve. -/

theorem clmmQuote_spec {s : ClmmState} {a : Amm2State} {amountIn out : UInt64} {dir : UInt8}
    (ha : clmmAsAmm2 s = some a) (h : clmmQuote s amountIn dir = some out) :
    amm2Quote a amountIn dir = some out ∧ out * 2 < a.rout dir := by
  rw [clmmQuote, ha, Option.bind_some, Option.bind_eq_some_iff] at h
  obtain ⟨out', hquote, h⟩ := h
  split at h
  · exact absurd h (by simp)
  · rename_i hhalf
    obtain rfl := Option.some.inj h
    refine ⟨hquote, UInt64.not_le.mp fun hge => hhalf ?_⟩
    have hdir : dir = 0 ∨ dir = 1 := by
      by_contra hne
      rw [not_or] at hne
      rw [amm2Quote, if_pos hne] at hquote
      split at hquote <;> exact absurd hquote (by simp)
    unfold Amm2State.rout at hge
    rcases hdir with rfl | rfl
    · exact Or.inl ⟨rfl, hge⟩
    · exact Or.inr ⟨rfl, hge⟩

/-- The check means what it says for outputs of 63 bits. -/
theorem half_iff {out rout : UInt64} (h : out * 2 < rout) :
    2 * out.toNat < rout.toNat ↔ out.toNat < 2 ^ 63 := by
  have hout := out.toNat_lt
  have hrout := rout.toNat_lt
  rw [UInt64.lt_iff_toNat_lt, UInt64.toNat_mul] at h
  change out.toNat * 2 % 2 ^ 64 < rout.toNat at h
  omega

/-- Bit 63 of a quotient taken in 64 bits. -/
theorem div_mod_lt_iff (n d : Nat) : n / d % 2 ^ 64 < 2 ^ 63 ↔ n / (d * 2 ^ 63) % 2 = 0 := by
  rw [← Nat.div_div_eq_div_mul]
  generalize n / d = q
  omega

/-! ## §5. When the adapter keeps its laws. -/

/-- **The adapter keeps its laws** exactly in these cases: the constant-product
law when the reserve has room for the amount, and the bound of half the virtual
reserve when bit 63 of the quotient it quotes is clear. -/
theorem adapter_law_iff (amountIn : UInt64) (dir : UInt8) (out : UInt64) :
    (∀ s : Amm2State, amm2Quote s amountIn dir = some out →
      (Law s amountIn dir out ↔ (s.rin dir).toNat + amountIn.toNat < 2 ^ 64)) ∧
    (∀ (s : ClmmState) (a : Amm2State),
      clmmAsAmm2 s = some a → clmmQuote s amountIn dir = some out →
      (2 * out.toNat < (a.rout dir).toNat ↔
        (a.rout dir).toNat * a.feeAdj amountIn
          / (((a.rin dir).toNat + a.feeAdj amountIn) % 2 ^ 64 * 2 ^ 63) % 2 = 0)) := by
  constructor
  · intro s h
    exact ⟨Law.lt, Amm2State.law_of_lt h⟩
  · intro s a ha h
    obtain ⟨hquote, hhalf⟩ := clmmQuote_spec ha h
    obtain ⟨-, hout⟩ := amm2Quote_spec hquote
    rw [half_iff hhalf, hout]
    exact div_mod_lt_iff _ _

/-- A small pool, and a position of price one. -/
theorem adapter_law_iff_demo :
    Law ⟨1000000, 2000000, 30, 1⟩ 10000 0 19743 ∧
      2 * (1244 : UInt64).toNat < ((⟨4000000, 1000000, 30, 1⟩ : Amm2State).rout 0).toNat :=
  ⟨((adapter_law_iff 10000 0 19743).1 ⟨1000000, 2000000, 30, 1⟩ (by decide +kernel)).mpr
      (by decide +kernel),
    ((adapter_law_iff 5000 0 1244).2 ⟨2 ^ 63, 2000000, 30, 1, 1⟩ ⟨4000000, 1000000, 30, 1⟩
      (by decide +kernel) (by decide +kernel)).mpr (by decide +kernel)⟩

/-- A sum of 2⁶⁴ and one more is taken for one, and an output of more than half
the range doubled is taken for a small one. -/
theorem adapter_breaks_law :
    (¬ ∀ (s : Amm2State) (amountIn : UInt64) (dir : UInt8) (out : UInt64),
      amm2Quote s amountIn dir = some out → Law s amountIn dir out) ∧
    (¬ ∀ (s : ClmmState) (a : Amm2State) (amountIn : UInt64) (dir : UInt8) (out : UInt64),
      clmmAsAmm2 s = some a → clmmQuote s amountIn dir = some out →
      2 * out.toNat < (a.rout dir).toNat) := by
  constructor
  · intro h
    have hlaw := (h ⟨2 ^ 63, 2 ^ 63 + 1, 0, 1⟩ (2 ^ 63 + 1) 0 1 (by decide +kernel)).quote
    exact absurd hlaw (by decide +kernel)
  · intro h
    have hhalf := h ⟨7 * 2 ^ 61, 2 ^ 64 - 1, 0, 1, 1⟩ ⟨2635249153387078801, 16140901064495857663, 0, 1⟩
      (2 ^ 63) 0 12554034161274555961 (by decide +kernel) (by decide +kernel)
    exact absurd hhalf (by decide +kernel)

end ShredArb.Paper
