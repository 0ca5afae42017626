/-
  ShredArb.Orbit.Blob — the bytes of a pool's state: one writer
  (`write_dlmm`, `write_pump` of `arb-cap/live001.py`) and three readers
  (`read_dlmm_mem` of `paper_orbit.c`, `load_dlmm` of `arb-core/src/live.c`,
  `load_dlmm_blob` of `arb-core/src/state_apply.c`, and the same for Pump).

  The layout is restated by hand in each of them.  The memory reader takes fields
  at OFFSETS behind two length checks; the other two read field after field and
  stop at the first that is short.

  Conventions:
    • the writer's clock is a parameter,
    • `load_dlmm_blob` gets a 16-bit length: its blobs are shorter than 2¹⁶,
    • what a reader that fails has written so far is not used by its callers.

  Main results:
    * `readDlmm_eq_mem`, `readPump_eq_mem` — the readers agree,
    * `reads_writeDlmm`, `reads_writePump` — the round trips,
    * `hotToState_windowBins` — what is installed,
    * `blob_codec` — all of it.
-/
import ShredArb.Dlmm.CacheRefinement
import ShredArb.Lib.Parse
import ShredArb.Orbit.Kernel

namespace ShredArb.Orbit

open ShredArb.Dlmm ShredArb.Pump ShredArb.Tx ShredArb.Bytes ShredArb.Parse

/-! ## §1. The writer. -/

/-- The first bin of each id, in the order they stand. -/
def firstOfEach : List DlmmBin → (seen : List Int32) → List DlmmBin
  | [], _ => []
  | b :: bs, seen => if b.id ∈ seen then firstOfEach bs seen else b :: firstOfEach bs (b.id :: seen)

/-- The bins `write_dlmm` writes: those within `K` of the active one, the first of
    each id, by id. -/
def windowBins (s : DlmmState) : List DlmmBin :=
  (firstOfEach (s.bins.filter fun b => InWindow s.activeId b.id) []).mergeSort fun a b =>
    decide (a.id ≤ b.id)

/-- The bytes of a bin, `"<i"`, `"<Q"`, `"<Q"`. -/
def binBytes (b : DlmmBin) : List UInt8 :=
  [leBytes 4 b.id.toUInt32.toNat, leBytes 8 b.amountX.toNat, leBytes 8 b.amountY.toNat].flatten

/-- The fields before the bins. -/
def dlmmFields (now : Int64) (s : DlmmState) (nbin : Nat) : List (List UInt8) :=
  [leBytes 4 s.activeId.toUInt32.toNat, leBytes 2 s.binStep.toNat, leBytes 1 s.status.toNat,
    leBytes 2 s.parameters.baseFactor.toNat, leBytes 2 s.parameters.filterPeriod.toNat,
    leBytes 2 s.parameters.decayPeriod.toNat, leBytes 2 s.parameters.reductionFactor.toNat,
    leBytes 4 s.parameters.variableFeeControl.toNat,
    leBytes 4 s.parameters.maxVolatilityAccumulator.toNat,
    leBytes 2 s.parameters.protocolShare.toNat, leBytes 1 s.parameters.baseFeePowerFactor.toNat,
    leBytes 1 s.parameters.collectFeeMode.toNat,
    leBytes 4 s.vParameters.volatilityAccumulator.toNat,
    leBytes 4 s.vParameters.volatilityReference.toNat,
    leBytes 4 s.vParameters.indexReference.toUInt32.toNat,
    leBytes 8 s.vParameters.lastUpdateTimestamp.toUInt64.toNat,
    leBytes 8 s.reserveX.toNat, leBytes 8 s.reserveY.toNat, leBytes 8 now.toUInt64.toNat,
    leBytes 2 nbin]

/-- `write_dlmm`. -/
def writeDlmm (now : Int64) (s : DlmmState) : List UInt8 :=
  let bins := windowBins s
  (dlmmFields now s bins.length).flatten ++ bins.flatMap binBytes

/-- `write_pump`. -/
def writePump (s : PumpState) : List UInt8 :=
  [leBytes 8 s.reserveBase.toNat, leBytes 8 s.reserveQuote.toNat,
    leBytes 8 s.virtualQuote.toUInt64.toNat, leBytes 8 s.lpFeeBps.toNat,
    leBytes 8 s.protocolFeeBps.toNat, leBytes 8 s.creatorFeeBps.toNat, leBytes 1 s.disabled.toNat,
    leBytes 1 s.status.toNat].flatten

/-! ## §2. The readers that go field by field. -/

/-- The widths of the fields before the bins. -/
def dlmmWidths : List Nat := [4, 2, 1, 2, 2, 2, 2, 4, 4, 2, 1, 1, 4, 4, 4, 8, 8, 8, 8, 2]

/-- One bin. -/
def readBin : Parser DlmmBin :=
  andThen (fields [4, 8, 8]) fun
    | [id, x, y] => done ⟨.ofNat (leNat id), .ofNat (leNat x), .ofNat (leNat y), 0⟩
    | _ => fail

/-- The body `load_dlmm` and `load_dlmm_blob` share; they differ in how many bins they
    take. -/
def readDlmm (binMax : Nat) : Parser DlmmState :=
  andThen (fields dlmmWidths) fun
    | [active, binStep, status, bf, fp, dp, rf, vfc, mva, pshare, power, feeMode, vacc, vref, iref,
        last, rx, ry, now, nbin] =>
      if leNat nbin > binMax then fail
      else andThen (times readBin (leNat nbin)) fun bins => done
        { activeId := .ofNat (leNat active)
          binStep := .ofNat (leNat binStep)
          status := .ofNat (leNat status)
          parameters :=
            { baseFactor := .ofNat (leNat bf)
              filterPeriod := .ofNat (leNat fp)
              decayPeriod := .ofNat (leNat dp)
              reductionFactor := .ofNat (leNat rf)
              variableFeeControl := .ofNat (leNat vfc)
              maxVolatilityAccumulator := .ofNat (leNat mva)
              protocolShare := .ofNat (leNat pshare)
              baseFeePowerFactor := .ofNat (leNat power)
              collectFeeMode := .ofNat (leNat feeMode) }
          vParameters :=
            { volatilityAccumulator := .ofNat (leNat vacc)
              volatilityReference := .ofNat (leNat vref)
              indexReference := .ofNat (leNat iref)
              lastUpdateTimestamp := .ofNat (leNat last) }
          reserveX := .ofNat (leNat rx)
          reserveY := .ofNat (leNat ry)
          nowTs := .ofNat (leNat now)
          bins := bins }
    | _ => fail

/-- `LIVE_BIN_MAX`. -/
def liveBinMax : Nat := dlmmCacheWindow

/-- `DLMM_BINS_MAX`. -/
def dlmmBinsMax : Nat := 210

/-- `load_dlmm`: the cache with the pool in it, and the rest of the file. -/
def loadDlmm (f : List UInt8) (c : DlmmCache) (idx : Nat) : Option (DlmmCache × List UInt8) :=
  (readDlmm liveBinMax f).bind fun r => (dlmmCachePut c idx r.1).map fun c => (c, r.2)

/-- `load_dlmm_blob`. -/
def loadDlmmBlob (p : List UInt8) : Option DlmmState := (readDlmm dlmmBinsMax p).map Prod.fst

/-- The body of `load_pump` and `load_pump_blob`. -/
def readPump : Parser PumpState :=
  andThen (fields [8, 8, 8, 8, 8, 8, 1, 1]) fun
    | [base, quote, virt, lp, protocol, creator, disabled, status] => done
      { reserveBase := .ofNat (leNat base)
        reserveQuote := .ofNat (leNat quote)
        virtualQuote := .ofNat (leNat virt)
        lpFeeBps := .ofNat (leNat lp)
        protocolFeeBps := .ofNat (leNat protocol)
        creatorFeeBps := .ofNat (leNat creator)
        disabled := .ofNat (leNat disabled)
        status := .ofNat (leNat status) }
    | _ => fail

/-- The Pump slot of a pool. -/
def installPump (pump : List (Option PumpState)) (idx : Nat) (s : PumpState) : List (Option PumpState) :=
  pump.set idx (some s)

/-- `load_pump`: the Pump slots with the pool in them, and the rest of the file. -/
def loadPump (f : List UInt8) (pump : List (Option PumpState)) (idx : Nat) :
    Option (List (Option PumpState) × List UInt8) :=
  (readPump f).map fun r => (installPump pump idx r.1, r.2)

/-- `load_pump_blob`. -/
def loadPumpBlob (p : List UInt8) : Option PumpState := (readPump p).map Prod.fst

/-! ## §3. The readers agree. -/

theorem byteAt_eq_field {p : List UInt8} {off : Nat} (h : off < p.length) :
    UInt8.ofNat (leNat (field p off 1)) = byteAt p off := by
  have hfield : field p off 1 = [p[off]] := by
    rw [field, List.drop_eq_getElem_cons h, List.take_succ_cons, List.take_zero]
  rw [hfield, byteAt, List.getD_eq_getElem?_getD, List.getElem?_eq_getElem h, Option.getD_some]
  simp [leNat]

/-- The bin at an offset. -/
def binAt (p : List UInt8) (off : Nat) : DlmmBin :=
  ⟨.ofNat (word p off 4), .ofNat (word p (off + 4) 8), .ofNat (word p (off + 12) 8), 0⟩

theorem readBin_drop {p : List UInt8} {off : Nat} (h : off ≤ p.length) :
    readBin (p.drop off)
      = if off + 20 ≤ p.length then some (binAt p off, p.drop (off + 20)) else none := by
  have hsum : [4, 8, 8].sum = 20 := rfl
  rw [readBin, andThen, fields_eq, List.length_drop, hsum]
  by_cases hbin : off + 20 ≤ p.length
  · rw [if_pos (show 20 ≤ p.length - off by omega), if_pos hbin]
    simp only [cutAt, done, Option.bind_some, List.drop_drop, binAt, word, field, Nat.add_assoc,
      Nat.reduceAdd]
  · rw [if_neg (show ¬20 ≤ p.length - off by omega), if_neg hbin, Option.bind_none]

/-- The bins, one after another. -/
theorem times_readBin {p : List UInt8} (n : Nat) : ∀ {off : Nat}, off ≤ p.length →
    times readBin n (p.drop off) = if off + 20 * n ≤ p.length then
      some ((List.range n).map fun i => binAt p (off + 20 * i), p.drop (off + 20 * n)) else none := by
  induction n with
  | zero =>
    intro off hoff
    simp [times, done, hoff]
  | succ n ih =>
    intro off hoff
    rw [times, andThen, readBin_drop hoff]
    by_cases hbin : off + 20 ≤ p.length
    · have hshift : ∀ i, off + 20 + 20 * i = off + 20 * (i + 1) := by omega
      rw [if_pos hbin, Option.bind_some, andThen, ih hbin]
      simp only [hshift]
      by_cases hrest : off + 20 * (n + 1) ≤ p.length
      · rw [if_pos hrest, if_pos hrest, Option.bind_some, List.range_succ_eq_map, List.map_cons,
          List.map_map]
        rfl
      · rw [if_neg hrest, if_neg hrest, Option.bind_none]
    · rw [if_neg hbin, Option.bind_none, if_neg (by omega)]

/-- The bins of `read_dlmm_mem`. -/
theorem binAt_mem (p : List UInt8) (i : Nat) :
    binAt p (73 + 20 * i) = ⟨.ofNat (word p (73 + 20 * i) 4), .ofNat (word p (77 + 20 * i) 8),
      .ofNat (word p (85 + 20 * i) 8), 0⟩ := by
  have h4 : 73 + 20 * i + 4 = 77 + 20 * i := by omega
  have h12 : 73 + 20 * i + 12 = 85 + 20 * i := by omega
  rw [binAt, h4, h12]

/-- **Reading field by field is reading at the offsets**, while the bins are few. -/
theorem readDlmm_eq_mem {binMax : Nat} (hmax : liveBinMax ≤ binMax) {p : List UInt8}
    (hcount : 73 ≤ p.length → word p 71 2 ≤ liveBinMax) :
    (readDlmm binMax p).map Prod.fst = readDlmmMem p := by
  have hsum : dlmmWidths.sum = 73 := rfl
  rw [readDlmm, andThen, fields_eq, hsum, readDlmmMem]
  by_cases hhead : 73 ≤ p.length
  · have hfew : word p 71 2 ≤ 33 := hcount hhead
    have hmany : ¬word p 71 2 > binMax := Nat.not_lt.mpr (Nat.le_trans hfew hmax)
    rw [if_pos hhead, Option.bind_some]
    simp only [dlmmWidths, cutAt, List.drop_drop, Nat.reduceAdd]
    -- the fields, by their offsets
    have h0 : List.take 4 p = field p 0 4 := rfl
    have hfield : ∀ off n, List.take n (List.drop off p) = field p off n := fun _ _ => rfl
    have hword : ∀ off n, leNat (field p off n) = word p off n := fun _ _ => rfl
    simp only [h0, hfield]
    rw [byteAt_eq_field (by omega), byteAt_eq_field (by omega), byteAt_eq_field (by omega)]
    simp only [hword]
    rw [if_neg hmany, andThen, times_readBin _ hhead]
    by_cases hbins : 73 + 20 * word p 71 2 ≤ p.length
    · have hok : ¬(p.length < 73 ∨ word p 71 2 > dlmmCacheWindow ∨
          p.length < 73 + 20 * word p 71 2) := by
        unfold dlmmCacheWindow
        omega
      rw [if_pos hbins, if_neg hok]
      simp only [Option.bind_some, done, Option.map_some, binAt_mem]
    · rw [if_neg hbins, if_pos (by omega), Option.bind_none, Option.map_none]
  · rw [if_neg hhead, Option.bind_none, Option.map_none, if_pos (.inl (by omega))]

theorem readPump_eq_mem (p : List UInt8) : (readPump p).map Prod.fst = readPumpMem p := by
  have hsum : [8, 8, 8, 8, 8, 8, 1, 1].sum = 50 := rfl
  rw [readPump, andThen, fields_eq, hsum, readPumpMem]
  by_cases hlen : 50 ≤ p.length
  · rw [if_pos hlen, if_neg (by omega), Option.bind_some]
    simp only [cutAt, List.drop_drop, Nat.reduceAdd]
    have h0 : List.take 8 p = field p 0 8 := rfl
    have hfield : ∀ off n, List.take n (List.drop off p) = field p off n := fun _ _ => rfl
    simp only [h0, hfield]
    rw [byteAt_eq_field (by omega), byteAt_eq_field (by omega)]
    rfl
  · rw [if_neg hlen, if_pos (by omega), Option.bind_none, Option.map_none]

/-! ## §4. Round trips. -/

theorem u8_leBytes (x : UInt8) : UInt8.ofNat (leNat (leBytes 1 x.toNat)) = x := by
  rw [leNat_leBytes, Nat.mod_eq_of_lt (show x.toNat < 256 ^ 1 from x.toNat_lt), UInt8.ofNat_toNat]

theorem u16_leBytes (x : UInt16) : UInt16.ofNat (leNat (leBytes 2 x.toNat)) = x := by
  rw [leNat_leBytes, Nat.mod_eq_of_lt (show x.toNat < 256 ^ 2 from x.toNat_lt), UInt16.ofNat_toNat]

theorem u32_leBytes (x : UInt32) : UInt32.ofNat (leNat (leBytes 4 x.toNat)) = x := by
  rw [leNat_leBytes, Nat.mod_eq_of_lt (show x.toNat < 256 ^ 4 from x.toNat_lt), UInt32.ofNat_toNat]

theorem u64_leBytes (x : UInt64) : UInt64.ofNat (leNat (leBytes 8 x.toNat)) = x := by
  rw [leNat_leBytes, Nat.mod_eq_of_lt (show x.toNat < 256 ^ 8 from x.toNat_lt), UInt64.ofNat_toNat]

theorem i32_leBytes (x : Int32) : Int32.ofNat (leNat (leBytes 4 x.toUInt32.toNat)) = x :=
  congrArg Int32.ofUInt32 (u32_leBytes x.toUInt32)

theorem i64_leBytes (x : Int64) : Int64.ofNat (leNat (leBytes 8 x.toUInt64.toNat)) = x :=
  congrArg Int64.ofUInt64 (u64_leBytes x.toUInt64)

/-- A bin as it is read: its price is to be derived. -/
def unpriced (b : DlmmBin) : DlmmBin := { b with price := 0 }

theorem reads_bin (b : DlmmBin) : Reads readBin (binBytes b) (unpriced b) := by
  have hread := reads_fields
    [leBytes 4 b.id.toUInt32.toNat, leBytes 8 b.amountX.toNat, leBytes 8 b.amountY.toNat]
  intro rest
  rw [readBin, andThen]
  rw [show [4, 8, 8] = [leBytes 4 b.id.toUInt32.toNat, leBytes 8 b.amountX.toNat,
    leBytes 8 b.amountY.toNat].map List.length from by simp [length_leBytes], binBytes, hread rest]
  simp only [Option.bind_some, done, i32_leBytes, u64_leBytes, unpriced]

theorem reads_bins (bins : List DlmmBin) :
    Reads (times readBin bins.length) (bins.flatMap binBytes) (bins.map unpriced) := by
  induction bins with
  | nil => exact reads_done []
  | cons b bins ih =>
    rw [List.flatMap_cons, List.map_cons]
    exact (reads_bin b).andThen ih.map

theorem dlmmFields_widths (now : Int64) (s : DlmmState) (nbin : Nat) :
    (dlmmFields now s nbin).map List.length = dlmmWidths := by
  simp only [dlmmFields, List.map_cons, List.map_nil, length_leBytes, dlmmWidths]

theorem reads_writeDlmm {binMax : Nat} (now : Int64) (s : DlmmState) (hfew : (windowBins s).length ≤ 33)
    (hmax : 33 ≤ binMax) :
    Reads (readDlmm binMax) (writeDlmm now s)
      { s with nowTs := now, bins := (windowBins s).map unpriced } := by
  have hhead := reads_fields (dlmmFields now s (windowBins s).length)
  rw [dlmmFields_widths] at hhead
  have hcount : leNat (leBytes 2 (windowBins s).length) = (windowBins s).length := by
    rw [leNat_leBytes]
    exact Nat.mod_eq_of_lt (by omega)
  unfold writeDlmm readDlmm
  refine hhead.andThen ?_
  simp only [dlmmFields, hcount, i32_leBytes, i64_leBytes, u8_leBytes, u16_leBytes, u32_leBytes,
    u64_leBytes]
  rw [if_neg (by omega)]
  exact (reads_bins (windowBins s)).map

theorem reads_writePump (s : PumpState) : Reads readPump (writePump s) s := by
  have hread := reads_fields [leBytes 8 s.reserveBase.toNat, leBytes 8 s.reserveQuote.toNat,
    leBytes 8 s.virtualQuote.toUInt64.toNat, leBytes 8 s.lpFeeBps.toNat,
    leBytes 8 s.protocolFeeBps.toNat, leBytes 8 s.creatorFeeBps.toNat, leBytes 1 s.disabled.toNat,
    leBytes 1 s.status.toNat]
  simp only [List.map_cons, List.map_nil, length_leBytes] at hread
  intro rest
  rw [readPump, andThen, writePump, hread rest]
  simp only [Option.bind_some, done, i64_leBytes, u64_leBytes, u8_leBytes]

/-! ## §5. The bins of the window. -/

theorem firstOfEach_spec : ∀ (bins : List DlmmBin) (seen : List Int32),
    (firstOfEach bins seen).Sublist bins ∧ ((firstOfEach bins seen).map (·.id)).Nodup ∧
      (∀ b ∈ firstOfEach bins seen, b.id ∉ seen) ∧
      ∀ id ∉ seen, findBin (firstOfEach bins seen) id = findBin bins id
  | [], _ => ⟨.slnil, .nil, fun _ hb => absurd hb (List.not_mem_nil), fun _ _ => rfl⟩
  | b :: bins, seen => by
    rw [firstOfEach]
    by_cases hseen : b.id ∈ seen
    · obtain ⟨hsub, hnodup, hnew, hfind⟩ := firstOfEach_spec bins seen
      rw [if_pos hseen]
      refine ⟨hsub.cons _, hnodup, hnew, fun id hid => ?_⟩
      rw [hfind id hid, findBin, findBin, List.find?_cons_of_neg]
      simp only [decide_eq_true_eq]
      rintro rfl
      exact hid hseen
    · obtain ⟨hsub, hnodup, hnew, hfind⟩ := firstOfEach_spec bins (b.id :: seen)
      rw [if_neg hseen]
      refine ⟨hsub.cons_cons _, ?_, ?_, fun id hid => ?_⟩
      · rw [List.map_cons, List.nodup_cons]
        refine ⟨fun hmem => ?_, hnodup⟩
        obtain ⟨c, hc, hcid⟩ := List.mem_map.mp hmem
        exact hnew c hc (hcid ▸ List.mem_cons_self)
      · intro c hc
        rcases List.mem_cons.mp hc with rfl | hc
        · exact hseen
        · exact fun hmem => hnew c hc (List.mem_cons_of_mem _ hmem)
      · by_cases hb : b.id = id
        · rw [findBin, findBin, List.find?_cons_of_pos (by simpa using hb),
            List.find?_cons_of_pos (by simpa using hb)]
        · have hrest := hfind id (by simp [hid, Ne.symm hb])
          rw [findBin, findBin] at hrest ⊢
          rw [List.find?_cons_of_neg (by simpa using hb), List.find?_cons_of_neg (by simpa using hb),
            hrest]

/-- The bins before they are sorted. -/
theorem windowBins_perm (s : DlmmState) :
    (windowBins s).Perm (firstOfEach (s.bins.filter fun b => InWindow s.activeId b.id) []) :=
  List.mergeSort_perm _ _

theorem windowBins_nodup (s : DlmmState) : ((windowBins s).map (·.id)).Nodup :=
  ((windowBins_perm s).map _).nodup_iff.mpr (firstOfEach_spec _ []).2.1

theorem inWindow_of_mem_windowBins {s : DlmmState} {b : DlmmBin} (hb : b ∈ windowBins s) :
    InWindow s.activeId b.id := by
  have hmem := (firstOfEach_spec _ []).1.subset ((windowBins_perm s).subset hb)
  exact of_decide_eq_true (List.mem_filter.mp hmem).2

/-- A window has 33 ids. -/
theorem length_windowBins (s : DlmmState) : (windowBins s).length ≤ 33 := by
  have hnodup : ((windowBins s).map fun b => b.id.toInt).Nodup := by
    have hids := windowBins_nodup s
    have hmap : ((windowBins s).map fun b => b.id.toInt)
        = ((windowBins s).map (·.id)).map Int32.toInt := by rw [List.map_map]; rfl
    rw [hmap]
    exact hids.map fun _ _ h => Int32.toInt_inj.mp h
  have hsub : ((windowBins s).map fun b => b.id.toInt).toFinset
      ⊆ Finset.Icc (s.activeId.toInt - 16) (s.activeId.toInt + 16) := by
    intro i hi
    obtain ⟨b, hb, rfl⟩ := List.mem_map.mp (List.mem_toFinset.mp hi)
    have hin := inWindow_of_mem_windowBins hb
    unfold InWindow dlmmCacheK at hin
    rw [Finset.mem_Icc]
    omega
  have hcard := Finset.card_le_card hsub
  rw [List.toFinset_card_of_nodup hnodup, List.length_map, Int.card_Icc] at hcard
  omega

/-- Each id of the window once, the first bin of it. -/
theorem findBin_windowBins {s : DlmmState} {id : Int32} (hid : InWindow s.activeId id) :
    findBin (windowBins s) id = findBin s.bins id := by
  have hspec := firstOfEach_spec (s.bins.filter fun b => InWindow s.activeId b.id) []
  have hfilter : findBin (s.bins.filter fun b => InWindow s.activeId b.id) id = findBin s.bins id := by
    rw [findBin, findBin, List.find?_filter]
    congr 1
    funext b
    by_cases hb : b.id = id
    · simp [hb, hid]
    · simp [hb]
  rw [← hfilter, ← hspec.2.2.2 id List.not_mem_nil]
  -- among bins with different ids the order does not matter
  have huniq : ∀ b ∈ windowBins s, ∀ c ∈ windowBins s, c.id = b.id → c = b := by
    intro b hb c hc h
    exact List.inj_on_of_nodup_map (windowBins_nodup s) hc hb h
  cases hfind : findBin (firstOfEach (s.bins.filter fun b => InWindow s.activeId b.id) []) id with
  | some b =>
    have hb : b ∈ windowBins s := (windowBins_perm s).symm.subset (List.mem_of_find?_eq_some hfind)
    obtain rfl : b.id = id := findBin_id hfind
    exact findBin_eq_of_unique hb fun c hc => huniq b hb c hc
  | none =>
    rw [findBin, List.find?_eq_none] at hfind ⊢
    exact fun b hb => hfind b ((windowBins_perm s).subset hb)

/-! ## §6. What is installed. -/

/-- The state restricted to the window around its active bin: each id once, in order. -/
def windowed (s : DlmmState) : DlmmState :=
  { s with
    bins := (List.finRange dlmmCacheWindow).filterMap fun i =>
      (s.bins.find? fun b => b.id.toInt = slotId s.activeId i).map unpriced }

theorem holdingAt_unpriced (bins : List DlmmBin) (id : Int32) :
    holdingAt (bins.map unpriced) id = holdingAt bins id := by
  rw [holdingAt, holdingAt, findBin, findBin, List.find?_map, Option.map_map]
  rfl

/-- A slot of an entry that tracks the window has the bin of its id. -/
theorem hotBinAt_eq {s : DlmmState} {h : DlmmPoolHot} (hcenter : h.windowCenter = s.activeId)
    (hlabelled : SlotsLabelled h)
    (hwindow : ∀ id, InWindow s.activeId id → hotHolding h id = holdingAt s.bins id)
    (i : Fin dlmmCacheWindow) :
    hotBinAt h i = (s.bins.find? fun b => b.id.toInt = slotId s.activeId i).map unpriced := by
  -- the bin found by the number of a slot is the bin found by its id
  have hby : ∀ id : Int32, id.toInt = slotId s.activeId i →
      (s.bins.find? fun b => b.id.toInt = slotId s.activeId i) = findBin s.bins id := by
    intro id hid
    rw [findBin]
    congr 1
    funext b
    rw [← hid]
    exact decide_eq_decide.mpr Int32.toInt_inj
  have hlook : ∀ id : Int32, id.toInt = slotId s.activeId i →
      (findBin s.bins id).map (·.holding) = if h.live i then some (h.bin i).holding else none := by
    intro id hid
    have hslot : dlmmHotSlot h id = some i := dlmmHotSlot_eq_some.mpr (hcenter ▸ hid)
    rw [← holdingAt, ← hwindow id (inWindow_of_slotId hid), hotHolding, hslot, Option.bind_some]
  rw [hotBinAt]
  by_cases hlive : h.live i = true
  · have hid : (h.bin i).id.toInt = slotId s.activeId i := hcenter ▸ hlabelled i hlive
    have hfound := hlook _ hid
    rw [if_pos hlive] at hfound ⊢
    obtain ⟨b, hb, hhold⟩ := Option.map_eq_some_iff.mp hfound
    rw [hby _ hid, hb, Option.map_some, unpriced]
    have h1 : b.id = (h.bin i).id := congrArg Holding.id hhold
    have h2 : b.amountX = (h.bin i).amountX := congrArg Holding.amountX hhold
    have h3 : b.amountY = (h.bin i).amountY := congrArg Holding.amountY hhold
    rw [h1, h2, h3]
  · rw [if_neg hlive]
    cases hfind : s.bins.find? fun b => b.id.toInt = slotId s.activeId i with
    | none => rfl
    | some b =>
      have hid : b.id.toInt = slotId s.activeId i := by simpa using List.find?_some hfind
      have hnone := hlook b.id hid
      rw [if_neg hlive, ← hby b.id hid, hfind] at hnone
      exact absurd hnone (by simp)

/-- **What the written bytes install**: the state, restricted to its window. -/
theorem hotToState_windowBins (now : Int64) (s : DlmmState) :
    let h := hotOfState { s with nowTs := now, bins := (windowBins s).map unpriced }
    h.occupied = true ∧ dlmmHotToState h = { windowed s with nowTs := now } := by
  have hids : (((windowBins s).map unpriced).map (·.id)).Nodup := by
    rw [List.map_map]
    exact windowBins_nodup s
  have htracks := hotOfState_tracks
    (s := { s with nowTs := now, bins := (windowBins s).map unpriced }) hids
  generalize hotOfState { s with nowTs := now, bins := (windowBins s).map unpriced } = h at htracks
  have hwindow : ∀ id, InWindow s.activeId id → hotHolding h id = holdingAt s.bins id := by
    intro id hid
    rw [htracks.window id hid, holdingAt_unpriced, holdingAt, findBin_windowBins hid, holdingAt]
  have hbins : (List.finRange dlmmCacheWindow).filterMap (hotBinAt h) = (windowed s).bins :=
    List.filterMap_congr fun i _ =>
      hotBinAt_eq (s := s) htracks.windowCenter_eq htracks.labelled hwindow i
  refine ⟨htracks.occupied, ?_⟩
  rw [dlmmHotToState, hbins, htracks.activeId_eq, htracks.binStep_eq, htracks.status_eq,
    htracks.parameters_eq, htracks.vParameters_eq, htracks.reserveX_eq, htracks.reserveY_eq,
    htracks.nowTs_eq]
  rfl

theorem growCap_le {poolIdx : Nat} : ∀ (fuel : Nat) {nc : Nat}, nc ≤ dlmmCacheMaxPools →
    growCap poolIdx fuel nc ≤ dlmmCacheMaxPools
  | 0, _, h => h
  | fuel + 1, nc, h => by
    unfold dlmmCacheMaxPools at h ⊢
    rw [growCap]
    split
    · split
      · exact Nat.le_refl _
      · rename_i hhalf
        exact growCap_le fuel (by unfold dlmmCacheMaxPools at *; omega)
    · exact h

/-- `dlmm_cache_put` takes every pool below the limit. -/
theorem dlmmCachePut_isSome (c : DlmmCache) {idx : Nat} (hidx : idx < dlmmCacheMaxPools)
    (s : DlmmState) : ∃ c', dlmmCachePut c idx s = some c' := by
  rw [dlmmCachePut, if_neg (Nat.not_le.mpr hidx)]
  by_cases hcap : idx ≥ c.cap
  · have hstart : (if c.cap ≠ 0 then c.cap else 8) ≤ dlmmCacheMaxPools := by
      unfold dlmmCacheMaxPools at *
      split <;> omega
    have hpos : 1 ≤ (if c.cap ≠ 0 then c.cap else 8) := by
      split <;> omega
    have hle : growCap idx 16 (if c.cap ≠ 0 then c.cap else 8) ≤ dlmmCacheMaxPools :=
      growCap_le 16 hstart
    have hlt := lt_growCap hidx 16 (if c.cap ≠ 0 then c.cap else 8) (by
      unfold dlmmCacheMaxPools at hidx
      calc idx < 1 * 2 ^ 16 := by omega
        _ ≤ _ := Nat.mul_le_mul_right _ hpos)
    rw [if_pos hcap, dlmmCacheReserve, if_neg (by omega)]
    by_cases hgrown : c.cap ≥ growCap idx 16 (if c.cap ≠ 0 then c.cap else 8)
    · rw [if_pos hgrown]
      exact ⟨_, rfl⟩
    · rw [if_neg hgrown]
      exact ⟨_, rfl⟩
  · rw [if_neg hcap]
    exact ⟨_, rfl⟩

/-- The count of bins that is written. -/
theorem word_writeDlmm (now : Int64) (s : DlmmState) :
    word (writeDlmm now s) 71 2 = (windowBins s).length := by
  have hwidths := dlmmFields_widths now s (windowBins s).length
  have hlen : (dlmmFields now s (windowBins s).length).flatten.length = 73 := by
    rw [List.length_flatten, hwidths]
    rfl
  have hfield : field (dlmmFields now s (windowBins s).length).flatten 71 2
      = leBytes 2 (windowBins s).length := by
    refine field_flatten (k := 19) rfl ?_ (length_leBytes 2 _).symm
    rw [List.map_take, hwidths]
    rfl
  have hfew := length_windowBins s
  rw [word, writeDlmm, field_append_left (by omega), hfield, leNat_leBytes]
  exact Nat.mod_eq_of_lt (by omega)

/-- **The codec of a pool's state.**  What the writer writes, any reader turns into the
    state the entry then holds, restricted to its window; and on any bytes whose count
    of bins is at most 33 the readers take the same and install the same. -/
theorem blob_codec :
    (∀ (now : Int64) (s : DlmmState) (rest : List UInt8) (c : DlmmCache) (idx : Nat),
      idx < dlmmCacheMaxPools → ∃ s' c' h,
        readDlmmMem (writeDlmm now s) = some s' ∧ loadDlmmBlob (writeDlmm now s) = some s' ∧
          loadDlmm (writeDlmm now s ++ rest) c idx = some (c', rest) ∧
          dlmmCachePut c idx s' = some c' ∧ dlmmCacheGet c' idx = some h ∧
          dlmmHotToState h = { windowed s with nowTs := now }) ∧
    (∀ (s : PumpState) (rest : List UInt8) (pump : List (Option PumpState)) (idx : Nat),
      readPumpMem (writePump s) = some s ∧ loadPumpBlob (writePump s) = some s ∧
        loadPump (writePump s ++ rest) pump idx = some (installPump pump idx s, rest)) ∧
    (∀ p : List UInt8, (73 ≤ p.length → word p 71 2 ≤ 33) →
      loadDlmmBlob p = readDlmmMem p ∧ ∀ (c : DlmmCache) (idx : Nat),
        (loadDlmm p c idx).map Prod.fst = (readDlmmMem p).bind (dlmmCachePut c idx)) ∧
    ∀ p : List UInt8, loadPumpBlob p = readPumpMem p ∧
      ∀ (pump : List (Option PumpState)) (idx : Nat),
        (loadPump p pump idx).map Prod.fst = (readPumpMem p).map (installPump pump idx) := by
  have hagree : ∀ p : List UInt8, (73 ≤ p.length → word p 71 2 ≤ 33) →
      loadDlmmBlob p = readDlmmMem p ∧ ∀ (c : DlmmCache) (idx : Nat),
        (loadDlmm p c idx).map Prod.fst = (readDlmmMem p).bind (dlmmCachePut c idx) := by
    intro p hcount
    refine ⟨readDlmm_eq_mem (by decide) hcount, fun c idx => ?_⟩
    rw [← readDlmm_eq_mem (Nat.le_refl liveBinMax) hcount, loadDlmm]
    cases readDlmm liveBinMax p with
    | none => rfl
    | some r =>
      rw [Option.bind_some, Option.map_some, Option.bind_some, Option.map_map]
      exact Option.map_id'
  have hpump : ∀ p : List UInt8, loadPumpBlob p = readPumpMem p ∧
      ∀ (pump : List (Option PumpState)) (idx : Nat),
        (loadPump p pump idx).map Prod.fst = (readPumpMem p).map (installPump pump idx) := by
    intro p
    refine ⟨readPump_eq_mem p, fun pump idx => ?_⟩
    rw [← readPump_eq_mem, loadPump, Option.map_map, Option.map_map]
    rfl
  refine ⟨fun now s rest c idx hidx => ?_, fun s rest pump idx => ?_, hagree, hpump⟩
  · have hreads := fun {binMax : Nat} (hmax : 33 ≤ binMax) =>
      reads_writeDlmm now s (length_windowBins s) hmax
    have hblob : loadDlmmBlob (writeDlmm now s)
        = some { s with nowTs := now, bins := (windowBins s).map unpriced } := by
      have h := hreads (by decide : 33 ≤ dlmmBinsMax) []
      rw [List.append_nil] at h
      rw [loadDlmmBlob, h, Option.map_some]
    have hcount : 73 ≤ (writeDlmm now s).length → word (writeDlmm now s) 71 2 ≤ 33 :=
      fun _ => (word_writeDlmm now s).symm ▸ length_windowBins s
    obtain ⟨c', hput⟩ := dlmmCachePut_isSome c hidx
      { s with nowTs := now, bins := (windowBins s).map unpriced }
    obtain ⟨hocc, hentry⟩ := hotToState_windowBins now s
    refine ⟨_, c', _, ?_, hblob, ?_, hput, dlmmCachePut_get hput hocc, hentry⟩
    · rw [← (hagree _ hcount).1]
      exact hblob
    · rw [loadDlmm, hreads (show 33 ≤ liveBinMax from Nat.le_refl 33) rest, Option.bind_some, hput,
        Option.map_some]
  · have hread := reads_writePump s
    have hblob : loadPumpBlob (writePump s) = some s := by
      have h := hread []
      rw [List.append_nil] at h
      rw [loadPumpBlob, h, Option.map_some]
    refine ⟨?_, hblob, ?_⟩
    · rw [← (hpump _).1]
      exact hblob
    · rw [loadPump, hread rest, Option.map_some]

/-- Two bins of one id and one far away: the entry has the first. -/
theorem blob_codec_demo :
    let s : DlmmState :=
      { activeId := 5, binStep := 10, status := 0, parameters := ⟨1, 2, 3, 4, 5, 6, 7, 8, 9⟩
        vParameters := ⟨1, 2, -3, 4⟩, reserveX := 11, reserveY := 12, nowTs := 0
        bins := [⟨6, 1, 2, 9⟩, ⟨-20, 3, 4, 0⟩, ⟨6, 5, 6, 0⟩, ⟨-2, 7, 8, 0⟩] }
    (windowed s).bins = [⟨-2, 7, 8, 0⟩, ⟨6, 1, 2, 0⟩] ∧
      (∃ s' c' h, readDlmmMem (writeDlmm 77 s) = some s' ∧ loadDlmmBlob (writeDlmm 77 s) = some s' ∧
        loadDlmm (writeDlmm 77 s ++ []) ⟨[], 0⟩ 3 = some (c', []) ∧
        dlmmCachePut ⟨[], 0⟩ 3 s' = some c' ∧ dlmmCacheGet c' 3 = some h ∧
        dlmmHotToState h = { windowed s with nowTs := 77 }) ∧
      loadDlmmBlob (writeDlmm 77 s) = readDlmmMem (writeDlmm 77 s) := by
  intro s
  obtain ⟨hround, -, hagree, -⟩ := blob_codec
  refine ⟨by decide +kernel, hround 77 s [] ⟨[], 0⟩ 3 (by decide), (hagree _ fun _ => ?_).1⟩
  rw [word_writeDlmm]
  exact length_windowBins s

end ShredArb.Orbit
