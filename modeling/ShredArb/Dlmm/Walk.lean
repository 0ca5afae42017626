/-
  ShredArb.Dlmm.Walk — what ONE iteration of the bin walk does to the book.

  `walkStep_foi` is the inversion lemma of the loop body with the fee on the
  input: it names the bin that was touched, the amounts that went in and out,
  the price they were exchanged at, and where the active bin went.  Every
  invariant of a whole swap is an induction over the loop from it.

  A bin's price may be stored (non-zero) or still to be derived (zero);
  `effPrice` is the price either way, and the walk never changes it.
-/
import ShredArb.Dlmm.Arith
import ShredArb.Lib.Slots

namespace ShredArb.Dlmm

open ShredArb.Word ShredArb.Slots

/-! ## §1. The price of a bin. -/

theorem u128MulShr64_le {a b r : Nat} {up : Bool} (h : u128MulShr64 a b up = some r) :
    r ≤ 2 ^ 64 := by
  unfold u128MulShr64 at h
  simp only at h
  split at h
  · simp at h
  · split at h
    · split at h
      · simp at h
      · rw [← Option.some.inj h]
        exact wrap64_lt _
    · rw [← Option.some.inj h]
      exact (wrap64_lt _).le

theorem priceLoop_le {exp : Nat} : ∀ (n bit result squared r : Nat),
    result ≤ 2 ^ 64 → priceLoop exp n bit result squared = some r → r ≤ 2 ^ 64 := by
  intro n
  induction n with
  | zero =>
    intro bit result squared r hres h
    simp only [priceLoop, Option.some.injEq] at h
    omega
  | succ n ih =>
    intro bit result squared r hres h
    simp only [priceLoop, Option.bind_eq_some_iff] at h
    obtain ⟨result', hr, squared', -, h⟩ := h
    refine ih (bit + 1) result' squared' r ?_ h
    split at hr
    · exact u128MulShr64_le hr
    · simp only [Option.some.injEq] at hr
      omega

/-- A derived price is never zero: a zero power is refused, and the inverse
of a power that fits 65 bits is at least one. -/
theorem dlmmPriceFromId_pos {id : Int32} {step : UInt16} {p : BitVec 128}
    (h : dlmmPriceFromId id step = some p) : 0 < p.toNat := by
  unfold dlmmPriceFromId at h
  split at h
  · simp only [Option.some.injEq] at h
    subst h
    decide
  · simp only at h
    split at h
    · simp at h
    · rw [Option.bind_eq_some_iff] at h
      obtain ⟨r, hr, h⟩ := h
      have hle := priceLoop_le _ _ _ _ _ (le_refl _) hr
      split at h
      · simp at h
      · rename_i hr0
        simp only [Option.some.injEq] at h
        subst h
        have hfit : ∀ inv : Bool, 0 < (if inv then (2 ^ 128 - 1) / r else r)
            ∧ (if inv then (2 ^ 128 - 1) / r else r) < 2 ^ 128 := by
          intro inv
          have hq : 0 < (2 ^ 128 - 1) / r := Nat.div_pos (by omega) (by omega)
          have hq' : (2 ^ 128 - 1) / r ≤ 2 ^ 128 - 1 := Nat.div_le_self _ _
          cases inv with
          | true => exact ⟨hq, by simp only [if_true]; omega⟩
          | false => simp only [Bool.false_eq_true, if_false]; omega
        rw [BitVec.toNat_ofNat, Nat.mod_eq_of_lt (hfit _).2]
        exact (hfit _).1

/-- The price a visit to the bin uses: the stored one, or the derived one.  (A
bin whose price cannot be derived is never filled; any positive value does.) -/
def effPrice (step : UInt16) (b : DlmmBin) : Nat :=
  if b.price ≠ 0 then b.price.toNat
  else match dlmmPriceFromId b.id step with
    | some p => p.toNat
    | none => 1

theorem effPrice_pos (step : UInt16) (b : DlmmBin) : 0 < effPrice step b := by
  unfold effPrice
  split
  · rename_i hp
    exact Nat.pos_of_ne_zero fun h0 => hp (BitVec.eq_of_toNat_eq (by simpa using h0))
  · split
    · rename_i p hp
      exact dlmmPriceFromId_pos hp
    · exact Nat.one_pos

theorem effPrice_lt (step : UInt16) (b : DlmmBin) : effPrice step b < 2 ^ 128 := by
  unfold effPrice
  split
  · exact b.price.isLt
  · split
    · rename_i p hp
      exact p.isLt
    · norm_num

theorem effPrice_of_price_ne {step : UInt16} {b : DlmmBin} (h : b.price ≠ 0) :
    effPrice step b = b.price.toNat := by
  rw [effPrice, if_pos h]

/-- `ensure_price` stores the effective price and nothing else. -/
theorem ensurePrice_spec {b b' : DlmmBin} {step : UInt16}
    (h : ensurePrice b step = some b') :
    b' = { b with price := b'.price } ∧ b'.price ≠ 0 ∧
      b'.price.toNat = effPrice step b := by
  unfold ensurePrice at h
  split at h
  · rename_i hp
    simp only [Option.some.injEq] at h
    subst h
    exact ⟨rfl, hp, (effPrice_of_price_ne hp).symm⟩
  · rename_i hp
    simp only [Option.map_eq_some_iff] at h
    obtain ⟨p, hpid, h⟩ := h
    subst h
    refine ⟨rfl, ?_, ?_⟩
    · intro h0
      have hpos := dlmmPriceFromId_pos hpid
      have h0' : p = 0 := h0
      rw [h0'] at hpos
      simp at hpos
    · rw [effPrice, if_neg hp]
      simp [hpid]

/-! ## §2. Writing one bin of the array. -/

/-- The bins of a pool are slots keyed by their id. -/
theorem findBin_eq (l : List DlmmBin) (id : Int32) : findBin l id = findSlot (·.id) l id := rfl

theorem setBin_eq (l : List DlmmBin) (b : DlmmBin) : setBin l b = setSlot (·.id) l b := by
  induction l with
  | nil => rfl
  | cons c cs ih => rw [setBin, setSlot, ih]

theorem findBin_id {l : List DlmmBin} {id : Int32} {b : DlmmBin}
    (h : findBin l id = some b) : b.id = id :=
  findSlot_key h

theorem setBin_ids (l : List DlmmBin) (b : DlmmBin) :
    (setBin l b).map (·.id) = l.map (·.id) := by
  rw [setBin_eq]
  exact setSlot_keys l b

theorem setBin_setBin (l : List DlmmBin) {b b' : DlmmBin} (hid : b'.id = b.id) :
    setBin (setBin l b) b' = setBin l b' := by
  rw [setBin_eq, setBin_eq, setBin_eq]
  exact setSlot_setSlot l hid

/-- With distinct ids, a write changes the one bin it names. -/
theorem mem_setBin {l : List DlmmBin} {b c : DlmmBin}
    (hnd : (l.map (·.id)).Nodup) (hc : c ∈ setBin l b) :
    c = b ∨ (c ∈ l ∧ c.id ≠ b.id) := by
  rw [setBin_eq] at hc
  exact mem_setSlot_nodup hnd hc

/-- A reflexive relation between the bin found and the bin written extends to
the whole array, position by position. -/
theorem forall₂_setBin {R : DlmmBin → DlmmBin → Prop} (hrefl : ∀ b, R b b)
    {l : List DlmmBin} {b b' : DlmmBin} (hfind : findBin l b'.id = some b)
    (hR : R b b') : List.Forall₂ R l (setBin l b') := by
  rw [setBin_eq]
  exact forall₂_setSlot hrefl hfind hR

/-! ## §3. One iteration with the fee on the input. -/

/-- The side of a bin a swap pays into. -/
def DlmmBin.inSide (b : DlmmBin) (swapForY : Bool) : Nat :=
  (if swapForY then b.amountX else b.amountY).toNat

/-- The total the iteration means to leave on the in-side of the bin it
stands on, before the 64-bit field cuts it (0 when the iteration fails
earlier). -/
def bookedTotal (foi sfy : Bool) (w : Walk) : Nat :=
  ((visitBin w.after).bind fun v =>
    (takeFill v.1 v.2 w.left foi sfy).map fun f => v.2.inSide sfy + f.intoBin).getD 0

/-- What one iteration did: `bin` found, `bin'` written back, `used` in, `out`
out. -/
structure Iteration (sfy : Bool) (w w' : Walk) (bin bin' : DlmmBin) (used out : Nat) :
    Prop where
  found : findBin w.after.bins w.after.activeId = some bin
  id_eq : bin'.id = bin.id
  price_eq : effPrice w.after.binStep bin' = effPrice w.after.binStep bin
  bins_eq : w'.after.bins = setBin w.after.bins bin'
  step_eq : w'.after.binStep = w.after.binStep
  params_eq : w'.after.parameters = w.after.parameters
  paid : PaidFor sfy (effPrice w.after.binStep bin) used out
  booked : bookedTotal true sfy w = bin.inSide sfy + used
  in_eq : bin'.inSide sfy = (bin.inSide sfy + used) % 2 ^ 64
  out_le : out ≤ bin.outSide sfy
  out_eq : bin'.outSide sfy = bin.outSide sfy - out
  left_le : w'.left ≤ w.left
  stay : w'.left = 0 → w'.after.activeId = w.after.activeId
  move : 0 < w'.left → out = bin.outSide sfy ∧
    w'.after.activeId.toInt = w.after.activeId.toInt + (if sfy then -1 else 1)

theorem stepActive_spec {s s' : DlmmState} {sfy : Bool} (h : stepActive s sfy = some s') :
    s' = { s with activeId := s'.activeId } ∧
      s'.activeId.toInt = s.activeId.toInt + (if sfy then -1 else 1) := by
  have hlo := Int32.le_toInt s.activeId
  have hhi := Int32.toInt_lt s.activeId
  unfold stepActive at h
  split at h
  · rename_i hsfy
    split at h
    · simp at h
    · rename_i hmin
      unfold dlmmMinBinId at hmin
      simp only [Option.some.injEq] at h
      subst h
      refine ⟨rfl, ?_⟩
      simp only [hsfy, if_true]
      rw [Int32.toInt_ofInt_of_le (by omega) (by omega)]
      omega
  · rename_i hsfy
    split at h
    · simp at h
    · rename_i hmax
      unfold dlmmMaxBinId at hmax
      simp only [Option.some.injEq] at h
      subst h
      refine ⟨rfl, ?_⟩
      simp only [hsfy]
      rw [Int32.toInt_ofInt_of_le (by omega) (by omega)]
      simp

/-- What `bookFill` writes: the touched bin and the reserves. -/
theorem bookFill_spec {s s' : DlmmState} {bin : DlmmBin} {f : BinFill} {sfy : Bool}
    (h : bookFill s bin f sfy = some s') :
    ∃ bin', s'.bins = setBin s.bins bin' ∧ bin'.id = bin.id ∧ bin'.price = bin.price ∧
      bin'.inSide sfy = (bin.inSide sfy + f.intoBin) % 2 ^ 64 ∧
      f.outAmt ≤ bin.outSide sfy ∧ bin'.outSide sfy = bin.outSide sfy - f.outAmt ∧
      s'.activeId = s.activeId ∧ s'.binStep = s.binStep ∧ s'.parameters = s.parameters := by
  unfold bookFill at h
  simp only at h
  cases sfy with
  | true =>
    simp only [if_true] at h
    split at h
    · simp at h
    · rename_i hle
      rw [← Option.some.inj h]
      refine ⟨{ bin with amountX := bin.amountX + UInt64.ofNat f.intoBin,
                         amountY := bin.amountY - UInt64.ofNat f.outAmt },
        rfl, rfl, rfl, ?_, ?_, ?_, rfl, rfl, rfl⟩
      · simp only [DlmmBin.inSide, if_true]
        exact toNat_add_ofNat_mod _ _
      · simp only [DlmmBin.outSide, if_true]
        omega
      · simp only [DlmmBin.outSide, if_true]
        exact toNat_sub_ofNat (by omega)
  | false =>
    simp only [Bool.false_eq_true, if_false] at h
    split at h
    · simp at h
    · rename_i hle
      rw [← Option.some.inj h]
      refine ⟨{ bin with amountX := bin.amountX - UInt64.ofNat f.outAmt,
                         amountY := bin.amountY + UInt64.ofNat f.intoBin },
        rfl, rfl, rfl, ?_, ?_, ?_, rfl, rfl, rfl⟩
      · simp only [DlmmBin.inSide, Bool.false_eq_true, if_false]
        exact toNat_add_ofNat_mod _ _
      · simp only [DlmmBin.outSide, Bool.false_eq_true, if_false]
        omega
      · simp only [DlmmBin.outSide, Bool.false_eq_true, if_false]
        exact toNat_sub_ofNat (by omega)

/-- **One iteration of the walk, fee on the input.** -/
theorem walkStep_foi {sfy : Bool} {w w' : Walk} (hleft : w.left < 2 ^ 64)
    (h : walkStep true sfy w = some w') :
    ∃ bin bin' used out, Iteration sfy w w' bin bin' used out := by
  unfold walkStep at h
  simp only [Option.bind_eq_some_iff] at h
  obtain ⟨v, hv, f, hf, s, hs, h⟩ := h
  have hbooked : bookedTotal true sfy w = v.2.inSide sfy + f.intoBin := by
    rw [bookedTotal, hv, Option.bind_some, hf, Option.map_some, Option.getD_some]
  unfold visitBin at hv
  simp only [Option.bind_eq_some_iff, Option.map_eq_some_iff] at hv
  obtain ⟨bin, hfind, pbin, hprice, hv⟩ := hv
  subst hv
  obtain ⟨hpbin, hpne, hpeff⟩ := ensurePrice_spec hprice
  obtain ⟨bin', hbins, hid, hpr, hin, hle, hout, hact, hstep, hpar⟩ := bookFill_spec hs
  obtain ⟨excluded, m, hexc, hm, houtm, hinto, hshort⟩ := takeFill_foi hleft hf
  obtain ⟨-, hpaid, hempty⟩ := fillMm_spec (by omega) hm
  have hpid : pbin.id = bin.id := by rw [hpbin]
  have hpin : pbin.inSide sfy = bin.inSide sfy := by rw [hpbin]; rfl
  have hpout : pbin.outSide sfy = bin.outSide sfy := by rw [hpbin]; rfl
  simp only at hbooked hbins hid hpr hin hle hout hact hstep hpar hpaid
  split at h
  · simp at h
  · rename_i hincl
    simp only [Option.map_eq_some_iff] at h
    obtain ⟨s2, hs2, h⟩ := h
    subst h
    -- the state after the possible move of the active bin differs from `s` there only
    have hmove : s2 = { s with activeId := s2.activeId } ∧
        (w.left - f.included = 0 → s2.activeId = s.activeId) ∧
        (0 < w.left - f.included →
          s2.activeId.toInt = s.activeId.toInt + (if sfy then -1 else 1)) := by
      split at hs2
      · rename_i hpos
        obtain ⟨h1, h2⟩ := stepActive_spec hs2
        exact ⟨h1, fun h0 => absurd h0 (by omega), fun _ => h2⟩
      · rename_i hpos
        simp only [Option.some.injEq] at hs2
        subst hs2
        exact ⟨rfl, fun _ => rfl, fun h0 => absurd h0 hpos⟩
    obtain ⟨hs2eq, hstay, hgo⟩ := hmove
    refine ⟨bin, bin', f.intoBin, f.outAmt, ?_⟩
    constructor
    · exact hfind
    · rw [hid, hpid]
    · rw [effPrice_of_price_ne (by rw [hpr]; exact hpne), hpr, hpeff]
    · show s2.bins = _
      rw [hs2eq]
      show s.bins = _
      rw [hbins]
      exact setBin_setBin _ hid
    · show s2.binStep = _
      rw [hs2eq]
      exact hstep
    · show s2.parameters = _
      rw [hs2eq]
      exact hpar
    · rw [← hpeff, houtm, hinto]
      exact hpaid
    · rw [hbooked, hpin]
    · rw [hin, hpin]
    · rw [← hpout]
      exact hle
    · rw [hout, hpout]
    · show w.left - f.included ≤ w.left
      omega
    · intro h0
      show s2.activeId = _
      rw [hstay h0, hact]
      rfl
    · intro h0
      have h0' : 0 < w.left - f.included := h0
      refine ⟨?_, ?_⟩
      · rw [houtm, hempty (hshort (by omega)), hpout]
      · show s2.activeId.toInt = _
        rw [hgo h0', hact]
        rfl

end ShredArb.Dlmm
