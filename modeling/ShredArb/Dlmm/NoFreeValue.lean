/-
  ShredArb.Dlmm.NoFreeValue — THE BOOK NEVER PAYS FOR NOTHING.

  A book-shaped pool holds only Y below its active bin and only X above it.
  Each bin is a constant-sum pool at its own price, so its value in its OWN
  price, `price · X + 2^64 · Y`, never falls; but a trader moves through many
  bins at different prices, and no single price values the whole book.

  The argument: the value of each bin at its own price grows
  (`BinGrows`), and between two book-shaped states of one pool there are
  POSITIVE WEIGHTS for X and Y, depending only on where the two active bins
  stand, under which every single bin grows (`exists_weights`).  Summing over
  the book, a state with no more X and no more Y in total has the same totals.

  Main results:
    * `dlmmApplySwap_bookShaped` — a swap keeps the book's shape.
    * `no_free_value` — over any run of swaps.
-/
import ShredArb.Dlmm.Walk
import Mathlib.Logic.Relation

namespace ShredArb.Dlmm

open ShredArb.Word

/-! ## §1. The shape of the book. -/

/-- Distinct bin ids, no X below the active bin, no Y above it. -/
structure BookShaped (s : DlmmState) : Prop where
  distinct : (s.bins.map (·.id)).Nodup
  noX : ∀ b ∈ s.bins, b.id.toInt < s.activeId.toInt → b.amountX.toNat = 0
  noY : ∀ b ∈ s.bins, s.activeId.toInt < b.id.toInt → b.amountY.toNat = 0

theorem BookShaped.congr {s s' : DlmmState} (h : BookShaped s) (hb : s'.bins = s.bins)
    (ha : s'.activeId = s.activeId) : BookShaped s' := by
  refine ⟨?_, ?_, ?_⟩
  · rw [hb]
    exact h.distinct
  · rw [hb, ha]
    exact h.noX
  · rw [hb, ha]
    exact h.noY

/-- The two conditions on a bin of a book, for the two directions at once:
behind the walk nothing of the out-side is left, ahead of it nothing of the
in-side is there yet. -/
theorem BookShaped.sides {s : DlmmState} (h : BookShaped s) (sfy : Bool) {b : DlmmBin}
    (hb : b ∈ s.bins) :
    (0 < (b.id.toInt - s.activeId.toInt) * (if sfy then 1 else -1) → b.outSide sfy = 0) ∧
    ((b.id.toInt - s.activeId.toInt) * (if sfy then 1 else -1) < 0 → b.inSide sfy = 0) := by
  have hx := h.noX b hb
  have hy := h.noY b hb
  cases sfy with
  | true =>
    simp only [DlmmBin.outSide, DlmmBin.inSide, if_true]
    exact ⟨fun hd => hy (by omega), fun hd => hx (by omega)⟩
  | false =>
    simp only [DlmmBin.outSide, DlmmBin.inSide, Bool.false_eq_true, if_false]
    exact ⟨fun hd => hx (by omega), fun hd => hy (by omega)⟩

theorem bookShaped_of_sides {s : DlmmState} (sfy : Bool)
    (hd : (s.bins.map (·.id)).Nodup)
    (h : ∀ b ∈ s.bins,
      (0 < (b.id.toInt - s.activeId.toInt) * (if sfy then 1 else -1) → b.outSide sfy = 0) ∧
      ((b.id.toInt - s.activeId.toInt) * (if sfy then 1 else -1) < 0 → b.inSide sfy = 0)) :
    BookShaped s := by
  cases sfy with
  | true =>
    simp only [DlmmBin.outSide, DlmmBin.inSide, if_true] at h
    exact ⟨hd, fun b hb hlt => (h b hb).2 (by omega), fun b hb hlt => (h b hb).1 (by omega)⟩
  | false =>
    simp only [DlmmBin.outSide, DlmmBin.inSide, Bool.false_eq_true, if_false] at h
    exact ⟨hd, fun b hb hlt => (h b hb).1 (by omega), fun b hb hlt => (h b hb).2 (by omega)⟩

/-- **One iteration keeps the shape**: only the active bin changes, and it is
left behind only when its out-side is empty. -/
theorem Iteration.bookShaped {sfy : Bool} {w w' : Walk} {bin bin' : DlmmBin}
    {used out : Nat} (it : Iteration sfy w w' bin bin' used out)
    (h : BookShaped w.after) : BookShaped w'.after := by
  have hbinid : bin.id = w.after.activeId := findBin_id it.found
  refine bookShaped_of_sides sfy ?_ ?_
  · rw [it.bins_eq, setBin_ids]
    exact h.distinct
  · intro c hc
    rw [it.bins_eq] at hc
    rcases mem_setBin h.distinct hc with rfl | ⟨hmem, hne⟩
    · -- the bin just touched
      rw [it.id_eq, hbinid, it.out_eq]
      rcases Nat.eq_zero_or_pos w'.left with h0 | hpos
      · rw [it.stay h0]
        simp
      · obtain ⟨hall, hact⟩ := it.move hpos
        rw [hall, hact]
        refine ⟨fun _ => by omega, ?_⟩
        intro hd
        split at hd <;> omega
    · -- every other bin keeps its contents; the active bin moved at most onto it
      obtain ⟨hbehind, hahead⟩ := h.sides sfy hmem
      rcases Nat.eq_zero_or_pos w'.left with h0 | hpos
      · rw [it.stay h0]
        exact ⟨hbehind, hahead⟩
      · obtain ⟨-, hact⟩ := it.move hpos
        have hid : c.id.toInt ≠ w.after.activeId.toInt := by
          intro heq
          apply hne
          rw [it.id_eq, hbinid]
          exact Int32.toInt_inj.mp heq
        rw [hact]
        cases sfy with
        | true =>
          simp only [if_true] at hbehind hahead ⊢
          exact ⟨fun hd => hbehind (by omega), fun hd => hahead (by omega)⟩
        | false =>
          simp only [Bool.false_eq_true, if_false] at hbehind hahead ⊢
          exact ⟨fun hd => hbehind (by omega), fun hd => hahead (by omega)⟩

/-! ## §2. The value of a bin at its own price. -/

/-- The bin kept its id and price, and its value at that price did not fall. -/
structure BinGrows (step : UInt16) (b b' : DlmmBin) : Prop where
  id_eq : b'.id = b.id
  price_eq : effPrice step b' = effPrice step b
  value_le : effPrice step b * b.amountX.toNat + 2 ^ 64 * b.amountY.toNat
    ≤ effPrice step b * b'.amountX.toNat + 2 ^ 64 * b'.amountY.toNat

theorem BinGrows.refl (step : UInt16) (b : DlmmBin) : BinGrows step b b :=
  ⟨rfl, rfl, le_refl _⟩

theorem BinGrows.trans {step : UInt16} {a b c : DlmmBin} (h1 : BinGrows step a b)
    (h2 : BinGrows step b c) : BinGrows step a c := by
  refine ⟨h2.id_eq.trans h1.id_eq, h2.price_eq.trans h1.price_eq, ?_⟩
  have hv := h2.value_le
  rw [h1.price_eq] at hv
  exact h1.value_le.trans hv

/-- Every bin of the book, position by position, kept id and price and grew. -/
def BookGrows (s s' : DlmmState) : Prop :=
  s'.binStep = s.binStep ∧ List.Forall₂ (BinGrows s.binStep) s.bins s'.bins

theorem BookGrows.refl (s : DlmmState) : BookGrows s s :=
  ⟨rfl, List.forall₂_same.mpr fun b _ => BinGrows.refl _ b⟩

theorem BookGrows.trans {a b c : DlmmState} (h1 : BookGrows a b) (h2 : BookGrows b c) :
    BookGrows a c := by
  obtain ⟨hs1, hf1⟩ := h1
  obtain ⟨hs2, hf2⟩ := h2
  rw [hs1] at hf2
  refine ⟨hs2.trans hs1, ?_⟩
  rw [List.forall₂_iff_get] at hf1 hf2 ⊢
  refine ⟨hf1.1.trans hf2.1, ?_⟩
  intro i hi hi'
  have hib : i < b.bins.length := hf1.1 ▸ hi
  exact (hf1.2 i hi hib).trans (hf2.2 i hib hi')

/-- **One iteration grows the bin it touches**, when the bin's 64-bit field
can hold what is booked into it. -/
theorem Iteration.bookGrows {sfy : Bool} {w w' : Walk} {bin bin' : DlmmBin}
    {used out : Nat} (it : Iteration sfy w w' bin bin' used out)
    (hfit : bookedTotal true sfy w < 2 ^ 64) : BookGrows w.after w'.after := by
  refine ⟨it.step_eq, ?_⟩
  rw [it.bins_eq]
  refine forall₂_setBin (BinGrows.refl _) ?_ ?_ (b := bin)
  · rw [it.id_eq, findBin_id it.found]
    exact it.found
  · refine ⟨it.id_eq, it.price_eq, ?_⟩
    have hpaid := it.paid
    have hle := it.out_le
    have hout := it.out_eq
    have hin := it.in_eq
    rw [it.booked] at hfit
    rw [Nat.mod_eq_of_lt hfit] at hin
    generalize effPrice w.after.binStep bin = p at hpaid ⊢
    unfold PaidFor at hpaid
    cases sfy with
    | true =>
      simp only [DlmmBin.outSide, DlmmBin.inSide, if_true] at hpaid hle hout hin
      rw [hin, hout]
      zify [hle] at hpaid ⊢
      nlinarith
    | false =>
      simp only [DlmmBin.outSide, DlmmBin.inSide, Bool.false_eq_true, if_false]
        at hpaid hle hout hin
      rw [hin, hout]
      zify [hle] at hpaid ⊢
      nlinarith

/-! ## §3. A whole swap. -/

/-- No iteration of the loop books more into a bin than its 64-bit field
holds. -/
def WalkFits (foi sfy : Bool) : Nat → Walk → Prop
  | 0, _ => True
  | n + 1, w => w.left = 0 ∨ (bookedTotal foi sfy w < 2 ^ 64 ∧
      ∀ w' ∈ walkStep foi sfy w, WalkFits foi sfy n w')

instance decidableWalkFits (foi sfy : Bool) : ∀ (n : Nat) (w : Walk),
    Decidable (WalkFits foi sfy n w)
  | 0, _ => isTrue trivial
  | n + 1, w =>
      have : ∀ w', Decidable (WalkFits foi sfy n w') := decidableWalkFits foi sfy n
      inferInstanceAs (Decidable (w.left = 0 ∨ (bookedTotal foi sfy w < 2 ^ 64 ∧
        ∀ w' ∈ walkStep foi sfy w, WalkFits foi sfy n w')))

/-- No bin total of the swap exceeds `2 ^ 64 - 1`. -/
def SwapFits (s : DlmmState) (ix : DlmmSwapIx) : Prop :=
  WalkFits (feeOnInput (updateReferences s) (ix.swapForY != 0)) (ix.swapForY != 0) 256
    (walkInit s ix)

instance (s : DlmmState) (ix : DlmmSwapIx) : Decidable (SwapFits s ix) :=
  decidableWalkFits _ _ _ _

/-- **The run lemma of the loop**: what holds of the start and is carried by
every iteration holds at the end. -/
theorem walkLoop_induction {sfy : Bool} {P : Walk → Prop}
    (hstep : ∀ w w' bin bin' used out, w.left < 2 ^ 64 → P w →
      Iteration sfy w w' bin bin' used out → P w') :
    ∀ (n : Nat) (w w' : Walk), w.left < 2 ^ 64 → P w →
      walkLoop true sfy n w = some w' → P w' := by
  intro n
  induction n with
  | zero =>
    intro w w' _ hP h
    simp only [walkLoop, Option.some.injEq] at h
    exact h ▸ hP
  | succ n ih =>
    intro w w' hl hP h
    unfold walkLoop at h
    split at h
    · simp only [Option.some.injEq] at h
      exact h ▸ hP
    · rw [Option.bind_eq_some_iff] at h
      obtain ⟨v, hv, h⟩ := h
      obtain ⟨bin, bin', used, out, it⟩ := walkStep_foi hl hv
      exact ih v w' (lt_of_le_of_lt it.left_le hl) (hstep _ _ _ _ _ _ hl hP it) h

theorem walkLoop_bookGrows {sfy : Bool} : ∀ (n : Nat) (w w' : Walk), w.left < 2 ^ 64 →
    WalkFits true sfy n w → walkLoop true sfy n w = some w' →
    BookGrows w.after w'.after := by
  intro n
  induction n with
  | zero =>
    intro w w' _ _ h
    simp only [walkLoop, Option.some.injEq] at h
    exact h ▸ BookGrows.refl _
  | succ n ih =>
    intro w w' hl hfit h
    unfold walkLoop at h
    split at h
    · simp only [Option.some.injEq] at h
      exact h ▸ BookGrows.refl _
    · rename_i hne
      rw [Option.bind_eq_some_iff] at h
      obtain ⟨v, hv, h⟩ := h
      obtain ⟨hb, hnext⟩ := hfit.resolve_left hne
      obtain ⟨bin, bin', used, out, it⟩ := walkStep_foi hl hv
      exact (it.bookGrows hb).trans
        (ih v w' (lt_of_le_of_lt it.left_le hl) (hnext v hv) h)

theorem feeOnInput_of_mode_ne {s : DlmmState} (h : s.parameters.collectFeeMode ≠ 1)
    (sfy : Bool) : feeOnInput s sfy = true := by
  rw [feeOnInput, if_neg h]

/-- A successful swap with the fee on the input is a run of the loop. -/
theorem dlmmApplySwap_walk {s s' : DlmmState} {ix : DlmmSwapIx} {res : DlmmApplyResult}
    (hfee : s.parameters.collectFeeMode ≠ 1) (h : dlmmApplySwap s ix = some (s', res)) :
    ∃ w, walkLoop true (ix.swapForY != 0) 256 (walkInit s ix) = some w ∧ w.after = s' := by
  have hfoi : feeOnInput (updateReferences s) (ix.swapForY != 0) = true :=
    (feeOnInput_updateReferences s _).trans (feeOnInput_of_mode_ne hfee _)
  unfold dlmmApplySwap at h
  simp only [hfoi] at h
  split at h
  · simp at h
  · rw [Option.bind_eq_some_iff] at h
    obtain ⟨w, hw, h⟩ := h
    split at h
    · simp at h
    · split at h
      · simp at h
      · simp only [Option.some.injEq, Prod.mk.injEq] at h
        exact ⟨w, hw, h.1⟩

/-- **A swap keeps the shape of the book**, whatever its amounts do to the
64-bit fields. -/
theorem dlmmApplySwap_bookShaped {s s' : DlmmState} {ix : DlmmSwapIx}
    {res : DlmmApplyResult} (hbook : BookShaped s)
    (hfee : s.parameters.collectFeeMode ≠ 1) (h : dlmmApplySwap s ix = some (s', res)) :
    BookShaped s' := by
  obtain ⟨w, hw, rfl⟩ := dlmmApplySwap_walk hfee h
  refine walkLoop_induction (P := fun w => BookShaped w.after) ?_ 256 (walkInit s ix) w
    (UInt64.toNat_lt _) ?_ hw
  · intro w w' bin bin' used out _ hP it
    exact it.bookShaped hP
  · obtain ⟨-, -, hbins, hactive, -, -⟩ := updateReferences_shared s
    exact hbook.congr hbins hactive

theorem dlmmApplySwap_parameters {s s' : DlmmState} {ix : DlmmSwapIx}
    {res : DlmmApplyResult} (hfee : s.parameters.collectFeeMode ≠ 1)
    (h : dlmmApplySwap s ix = some (s', res)) : s'.parameters = s.parameters := by
  obtain ⟨w, hw, rfl⟩ := dlmmApplySwap_walk hfee h
  refine walkLoop_induction (P := fun w => w.after.parameters = s.parameters) ?_ 256
    (walkInit s ix) w (UInt64.toNat_lt _) (updateReferences_shared s).2.1 hw
  intro w w' bin bin' used out _ hP it
  exact it.params_eq.trans hP

/-- **A swap grows the value of every bin at that bin's price.** -/
theorem dlmmApplySwap_bookGrows {s s' : DlmmState} {ix : DlmmSwapIx}
    {res : DlmmApplyResult} (hfee : s.parameters.collectFeeMode ≠ 1)
    (hfit : SwapFits s ix) (h : dlmmApplySwap s ix = some (s', res)) :
    BookGrows s s' := by
  obtain ⟨w, hw, rfl⟩ := dlmmApplySwap_walk hfee h
  have hfoi : feeOnInput (updateReferences s) (ix.swapForY != 0) = true :=
    (feeOnInput_updateReferences s _).trans (feeOnInput_of_mode_ne hfee _)
  unfold SwapFits at hfit
  rw [hfoi] at hfit
  have hgrow := walkLoop_bookGrows 256 (walkInit s ix) w (UInt64.toNat_lt _) hfit hw
  obtain ⟨hstep, hbins⟩ := hgrow
  obtain ⟨hstep0, -, hbins0, -, -, -⟩ := updateReferences_shared s
  refine ⟨hstep.trans hstep0, ?_⟩
  have h1 : (walkInit s ix).after.bins = s.bins := hbins0
  have h2 : (walkInit s ix).after.binStep = s.binStep := hstep0
  rw [h1, h2] at hbins
  exact hbins

/-! ## §4. Weights under which every bin grows. -/

/-- The active bin went up: X counts one, Y counts `2 ^ 64`. -/
theorem bin_weight_up {p x y x' y' : Nat} {i a a' : Int} (hp : 0 < p) (haa : a < a')
    (hy : a < i → y = 0) (hx' : i < a' → x' = 0)
    (hy' : a' < i → y' = 0) (hv : p * x + 2 ^ 64 * y ≤ p * x' + 2 ^ 64 * y') :
    1 * x + 2 ^ 64 * y ≤ 1 * x' + 2 ^ 64 * y' := by
  rcases lt_trichotomy i a' with hlt | heq | hgt
  · -- below the new active bin all X is gone, paid for in Y
    rw [hx' hlt] at hv ⊢
    have : x ≤ p * x := Nat.le_mul_of_pos_left x hp
    omega
  · -- the new active bin had no Y before
    rw [hy (by omega)] at hv ⊢
    have hle : p * x ≤ p * (x' + 2 ^ 64 * y') := by
      have : 2 ^ 64 * y' ≤ p * (2 ^ 64 * y') := Nat.le_mul_of_pos_left _ hp
      calc p * x ≤ p * x' + 2 ^ 64 * y' := by omega
        _ ≤ p * x' + p * (2 ^ 64 * y') := by omega
        _ = p * (x' + 2 ^ 64 * y') := by ring
    have := Nat.le_of_mul_le_mul_left hle hp
    omega
  · rw [hy (by omega), hy' hgt] at hv ⊢
    have := Nat.le_of_mul_le_mul_left (show p * x ≤ p * x' by omega) hp
    omega

/-- The active bin went down: X counts `2 ^ 128`, Y counts one. -/
theorem bin_weight_down {p x y x' y' : Nat} {i a a' : Int} (hp : 0 < p)
    (hp' : p < 2 ^ 128) (haa : a' < a)
    (hx : i < a → x = 0) (hy : a < i → y = 0)
    (hy' : a' < i → y' = 0) (hv : p * x + 2 ^ 64 * y ≤ p * x' + 2 ^ 64 * y') :
    2 ^ 128 * x + 1 * y ≤ 2 ^ 128 * x' + 1 * y' := by
  rcases lt_trichotomy i a with hlt | heq | hgt
  · -- below the old active bin there was no X
    rw [hx hlt] at hv ⊢
    have : p * x' ≤ 2 ^ 128 * x' := Nat.mul_le_mul_right x' hp'.le
    omega
  · -- the old active bin has no Y any more
    rw [hy' (by omega)] at hv ⊢
    have hxx : x ≤ x' := Nat.le_of_mul_le_mul_left (show p * x ≤ p * x' by omega) hp
    obtain ⟨d, rfl⟩ := Nat.exists_eq_add_of_le hxx
    have hd : p * d ≤ 2 ^ 128 * d := Nat.mul_le_mul_right d hp'.le
    rw [Nat.mul_add] at hv ⊢
    omega
  · rw [hy hgt, hy' (by omega)] at hv ⊢
    have := Nat.le_of_mul_le_mul_left (show p * x ≤ p * x' by omega) hp
    omega

/-- The active bin is where it was: X counts that bin's price. -/
theorem bin_weight_stay {p α x y x' y' : Nat} {i a : Int} (hp : 0 < p)
    (hα : i = a → α = p)
    (hx : i < a → x = 0) (hy : a < i → y = 0) (hx' : i < a → x' = 0)
    (hy' : a < i → y' = 0) (hv : p * x + 2 ^ 64 * y ≤ p * x' + 2 ^ 64 * y') :
    α * x + 2 ^ 64 * y ≤ α * x' + 2 ^ 64 * y' := by
  rcases lt_trichotomy i a with hlt | heq | hgt
  · rw [hx hlt, hx' hlt] at hv ⊢
    omega
  · rw [hα heq]
    exact hv
  · rw [hy hgt, hy' hgt] at hv ⊢
    have := Nat.le_of_mul_le_mul_left (show p * x ≤ p * x' by omega) hp
    have := Nat.mul_le_mul_left α this
    omega

theorem findBin_of_mem {l : List DlmmBin} {b : DlmmBin} (hnd : (l.map (·.id)).Nodup)
    (hb : b ∈ l) : findBin l b.id = some b := by
  induction l with
  | nil => simp at hb
  | cons c cs ih =>
    simp only [List.map_cons, List.nodup_cons] at hnd
    rcases List.mem_cons.mp hb with rfl | hb
    · simp [findBin]
    · have hne : c.id ≠ b.id := fun heq => hnd.1 (heq ▸ List.mem_map_of_mem hb)
      have := ih hnd.2 hb
      simpa [findBin, hne] using this

/-- **Between two book-shaped states of a growing book there are positive
weights for X and Y under which every bin grows.** -/
theorem exists_weights {s s' : DlmmState} (hs : BookShaped s) (hs' : BookShaped s')
    (hg : BookGrows s s') :
    ∃ α β, 0 < α ∧ 0 < β ∧ List.Forall₂
      (fun b b' => α * b.amountX.toNat + β * b.amountY.toNat
        ≤ α * b'.amountX.toNat + β * b'.amountY.toNat) s.bins s'.bins := by
  obtain ⟨-, hbins⟩ := hg
  rw [List.forall₂_iff_get] at hbins
  obtain ⟨hlen, hbins⟩ := hbins
  have hmem : ∀ i (hi : i < s.bins.length), s.bins.get ⟨i, hi⟩ ∈ s.bins :=
    fun i hi => List.get_mem _ _
  have hmem' : ∀ i (hi : i < s'.bins.length), s'.bins.get ⟨i, hi⟩ ∈ s'.bins :=
    fun i hi => List.get_mem _ _
  rcases lt_trichotomy s.activeId.toInt s'.activeId.toInt with hup | hsame | hdown
  · refine ⟨1, 2 ^ 64, by norm_num, by norm_num, ?_⟩
    rw [List.forall₂_iff_get]
    refine ⟨hlen, fun i hi hi' => ?_⟩
    have hb := hbins i hi hi'
    refine bin_weight_up (effPrice_pos s.binStep (s.bins.get ⟨i, hi⟩)) hup
      (hs.noY _ (hmem i hi)) ?_ ?_ hb.value_le
    · rw [← hb.id_eq]
      exact hs'.noX _ (hmem' i hi')
    · rw [← hb.id_eq]
      exact hs'.noY _ (hmem' i hi')
  · let α := ((findBin s.bins s.activeId).map (effPrice s.binStep)).getD 1
    have hα : 0 < α := by
      show 0 < ((findBin s.bins s.activeId).map (effPrice s.binStep)).getD 1
      cases findBin s.bins s.activeId with
      | none => exact Nat.one_pos
      | some b => exact effPrice_pos s.binStep b
    refine ⟨α, 2 ^ 64, hα, by norm_num, ?_⟩
    rw [List.forall₂_iff_get]
    refine ⟨hlen, fun i hi hi' => ?_⟩
    have hb := hbins i hi hi'
    refine bin_weight_stay (effPrice_pos s.binStep (s.bins.get ⟨i, hi⟩)) ?_
      (hs.noX _ (hmem i hi)) (hs.noY _ (hmem i hi)) ?_ ?_ hb.value_le
    · intro heq
      have hid : (s.bins.get ⟨i, hi⟩).id = s.activeId := Int32.toInt_inj.mp heq
      have hfind := findBin_of_mem hs.distinct (hmem i hi)
      rw [hid] at hfind
      show ((findBin s.bins s.activeId).map (effPrice s.binStep)).getD 1 = _
      rw [hfind]
      rfl
    · rw [← hb.id_eq, hsame]
      exact hs'.noX _ (hmem' i hi')
    · rw [← hb.id_eq, hsame]
      exact hs'.noY _ (hmem' i hi')
  · refine ⟨2 ^ 128, 1, by norm_num, by norm_num, ?_⟩
    rw [List.forall₂_iff_get]
    refine ⟨hlen, fun i hi hi' => ?_⟩
    have hb := hbins i hi hi'
    refine bin_weight_down (effPrice_pos s.binStep (s.bins.get ⟨i, hi⟩))
      (effPrice_lt _ _) hdown (hs.noX _ (hmem i hi)) (hs.noY _ (hmem i hi)) ?_ hb.value_le
    · rw [← hb.id_eq]
      exact hs'.noY _ (hmem' i hi')

/-! ## §5. Runs of swaps. -/

/-- Total X over the bins. -/
def totalX (s : DlmmState) : Nat := (s.bins.map fun b => b.amountX.toNat).sum

/-- Total Y over the bins. -/
def totalY (s : DlmmState) : Nat := (s.bins.map fun b => b.amountY.toNat).sum

theorem weighted_totals_le {α β : Nat} {l l' : List DlmmBin}
    (h : List.Forall₂ (fun b b' => α * b.amountX.toNat + β * b.amountY.toNat
        ≤ α * b'.amountX.toNat + β * b'.amountY.toNat) l l') :
    α * (l.map fun b => b.amountX.toNat).sum + β * (l.map fun b => b.amountY.toNat).sum
      ≤ α * (l'.map fun b => b.amountX.toNat).sum
        + β * (l'.map fun b => b.amountY.toNat).sum := by
  induction h with
  | nil => exact le_refl _
  | cons hb _ ih =>
    simp only [List.map_cons, List.sum_cons, Nat.mul_add]
    omega

/-- One successful swap of a run: the clock may have moved, the direction and
amounts are arbitrary, and no bin total exceeds its 64-bit field. -/
def SwapStep (s s' : DlmmState) : Prop :=
  ∃ (now : Int64) (ix : DlmmSwapIx) (res : DlmmApplyResult),
    SwapFits { s with nowTs := now } ix ∧
      dlmmApplySwap { s with nowTs := now } ix = some (s', res)

/-- The invariant of a run, relative to its first state. -/
structure RunInv (s0 s : DlmmState) : Prop where
  book : BookShaped s
  mode : s.parameters.collectFeeMode ≠ 1
  grows : BookGrows s0 s

theorem SwapStep.runInv {s0 s s' : DlmmState} (h : RunInv s0 s) (hstep : SwapStep s s') :
    RunInv s0 s' := by
  obtain ⟨now, ix, res, hfit, happ⟩ := hstep
  have hbook : BookShaped { s with nowTs := now } := h.book.congr rfl rfl
  refine ⟨dlmmApplySwap_bookShaped hbook h.mode happ, ?_, ?_⟩
  · rw [dlmmApplySwap_parameters (s := { s with nowTs := now }) h.mode happ]
    exact h.mode
  · exact h.grows.trans
      (dlmmApplySwap_bookGrows (s := { s with nowTs := now }) h.mode hfit happ)

theorem run_runInv {s s' : DlmmState} (hbook : BookShaped s)
    (hfee : s.parameters.collectFeeMode ≠ 1) (hrun : Relation.ReflTransGen SwapStep s s') :
    RunInv s s' := by
  induction hrun with
  | refl => exact ⟨hbook, hfee, BookGrows.refl s⟩
  | tail _ hstep ih => exact hstep.runInv ih

/-- **No free value.**  From a book-shaped pool with the fee on the input,
every successful swap yields a book-shaped pool, and no run of swaps ends with
no more X and no more Y over the bins than it started with unless both totals
are the same. -/
theorem no_free_value (s : DlmmState) (hbook : BookShaped s)
    (hfee : s.parameters.collectFeeMode ≠ 1) :
    (∀ ix s' res, dlmmApplySwap s ix = some (s', res) → BookShaped s') ∧
    (∀ s', Relation.ReflTransGen SwapStep s s' →
      totalX s' ≤ totalX s → totalY s' ≤ totalY s →
      totalX s' = totalX s ∧ totalY s' = totalY s) := by
  refine ⟨fun ix s' res h => dlmmApplySwap_bookShaped hbook hfee h, ?_⟩
  intro s' hrun hX hY
  have hinv := run_runInv hbook hfee hrun
  obtain ⟨α, β, hα, hβ, hw⟩ := exists_weights hbook hinv.book hinv.grows
  have hsum : α * totalX s + β * totalY s ≤ α * totalX s' + β * totalY s' :=
    weighted_totals_le hw
  have hXm : α * totalX s' ≤ α * totalX s := Nat.mul_le_mul_left α hX
  have hYm : β * totalY s' ≤ β * totalY s := Nat.mul_le_mul_left β hY
  refine ⟨le_antisymm hX ?_, le_antisymm hY ?_⟩
  · exact Nat.le_of_mul_le_mul_left (show α * totalX s ≤ α * totalX s' by omega) hα
  · exact Nat.le_of_mul_le_mul_left (show β * totalY s ≤ β * totalY s' by omega) hβ

/-! ### A pool of three bins around price one -/

/-- Y below, both in the active bin, X above; no fee. -/
def demoPool : DlmmState where
  activeId := 0
  binStep := 10
  status := 0
  parameters := default
  vParameters := default
  reserveX := 1500
  reserveY := 1500
  bins := [⟨-1, 0, 1000, 18428315757951600016⟩, ⟨0, 500, 500, 18446744073709551616⟩,
    ⟨1, 1000, 0, 18465190817783261167⟩]
  nowTs := 0

/-- Sell 600 X: the active bin is emptied of Y and the walk goes one bin down. -/
def demoSell : DlmmSwapIx := ⟨600, 0, 1⟩

/-- `demoPool` after `demoSell`. -/
def demoPoolSold : DlmmState :=
  { demoPool with
    activeId := -1
    reserveX := 2100
    reserveY := 901
    bins := [⟨-1, 100, 901, 18428315757951600016⟩, ⟨0, 1000, 0, 18446744073709551616⟩,
      ⟨1, 1000, 0, 18465190817783261167⟩] }

theorem no_free_value_demo :
    BookShaped demoPool ∧ demoPool.parameters.collectFeeMode ≠ 1 ∧
      SwapStep demoPool demoPoolSold ∧ BookShaped demoPoolSold ∧
      (totalX demoPoolSold ≤ totalX demoPool → totalY demoPoolSold ≤ totalY demoPool →
        totalX demoPoolSold = totalX demoPool) := by
  have hbook : BookShaped demoPool := ⟨by decide, by decide, by decide⟩
  have hmode : demoPool.parameters.collectFeeMode ≠ 1 := by decide
  have hswap : dlmmApplySwap demoPool demoSell
      = some (demoPoolSold, ⟨600, 599, 0, 0, -1⟩) := by decide +kernel
  have hstep : SwapStep demoPool demoPoolSold :=
    ⟨0, demoSell, ⟨600, 599, 0, 0, -1⟩, by decide +kernel, hswap⟩
  obtain ⟨hshape, hvalue⟩ := no_free_value demoPool hbook hmode
  exact ⟨hbook, hmode, hstep, hshape _ _ _ hswap, fun hX hY =>
    (hvalue _ (Relation.ReflTransGen.single hstep) hX hY).1⟩

end ShredArb.Dlmm
