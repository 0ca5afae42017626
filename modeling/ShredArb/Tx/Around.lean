/-
  ShredArb.Tx.Around — framing around a signature (`frame_around_sig` of
  `arb-core/src/frame.c`).

  The signature of a candidate is searched in the bytes.  In a legacy or v0
  transaction it stands right after the number of signatures; in a version 1
  transaction the signatures are at the end, so the start is looked for
  BACKWARDS, within the largest such transaction.  The bytes of a signature may
  occur elsewhere: such a place gives no hit and does not end the search.

  Main results:
    * `frameTx_sig0`, `frameV1_sig0` — where the first signature stands,
    * `frameAroundSig_spec` — sound and complete.
-/
import ShredArb.Tx.Framing

namespace ShredArb.Framing

open ShredArb.Univ ShredArb.Bytes ShredArb.Scan ShredArb.Tx

/-! ## §1. The search. -/

/-- A legacy or v0 start `back` bytes before the signature. -/
def tryBack (p sig : List UInt8) (sigPos back : Nat) : Res FrameHit :=
  if back > sigPos then .bad
  else
    let start := sigPos - back
    match cu16 p start with
    | .need => .need
    | .bad => .bad
    | .ok nsig o =>
      if o - start ≠ back ∨ nsig < 1 ∨ nsig > txSigMax then .bad
      else if start + back + 64 > p.length then .need
      else if field p (start + back) 64 ≠ sig then .bad
      else frameTryAt p start

/-- A version 1 transaction from `s`, if its first signature is at `sig_pos`. -/
def tryV1 (requireDex : Bool) (p : List UInt8) (sigPos s : Nat) : Res FrameHit :=
  if p[s]? ≠ some txV1Prefix then .bad
  else match frameParseV1 requireDex p s with
    | .need => .need
    | .bad => .bad
    | .ok hit o =>
      if hit.nsig < 1 ∨ hit.txEnd - 64 * hit.nsig.toNat ≠ sigPos then .bad else .ok hit o

/-- `frame_v1_from_sig0`. -/
def frameV1FromSig0 (requireDex : Bool) (p : List UInt8) (sigPos : Nat) : Res FrameHit :=
  if sigPos + 64 > p.length then .bad
  else
    let lo := if sigPos + 64 > txV1Max then sigPos + 64 - txV1Max else 0
    firstOk ((List.range' lo (sigPos + 1 - lo)).map (tryV1 requireDex p sigPos))

/-- One turn of the loop over the places of the signature. -/
def aroundAt (p sig : List UInt8) (sigPos : Nat) : Res FrameHit :=
  firstOk [tryBack p sig sigPos 1, tryBack p sig sigPos 2, tryBack p sig sigPos 3,
    frameV1FromSig0 true p sigPos]

/-- `FRAME_*`. -/
inductive FrameClass where
  | invalid
  | incomplete
  | framed (hit : FrameHit)
  deriving DecidableEq, Repr

/-- The places of the signature. -/
def sigPlaces (p sig : List UInt8) : List Nat :=
  (List.range (p.length - 63)).filter fun sigPos => field p sigPos 64 = sig

/-- `frame_around_sig`. -/
def frameAroundSig (p : List UInt8) (sig : Vector UInt8 64) : FrameClass :=
  if p.length < 65 then .incomplete
  else match firstOk ((sigPlaces p sig.toList).map (aroundAt p sig.toList)) with
    | .ok hit _ => .framed hit
    | .need => .incomplete
    | .bad => if sigPlaces p sig.toList = [] then .incomplete else .invalid

/-! ## §2. The first signature. -/

/-- The first signature of the transaction framed at an offset. -/
def firstSig (p : List UInt8) (start : Nat) : Option (List UInt8) :=
  if p[start]? = some txV1Prefix then
    match frameV1 p start with
    | .ok t _ => t.sigs.head?
    | _ => none
  else match frameTx p start with
    | .ok f _ => f.tx.sigs.head?
    | _ => none

/-- Signatures read one after another. -/
theorem times_signature : ∀ (n : Nat) {p : List UInt8} {off o : Nat} {sigs : List (List UInt8)},
    off ≤ p.length → times signature n p off = .ok sigs o →
    o = off + 64 * n ∧ o ≤ p.length ∧ sigs.length = n ∧
      (0 < n → sigs.head? = some (field p off 64)) := by
  intro n
  induction n with
  | zero =>
    intro p off o sigs hoff h
    obtain ⟨rfl, rfl⟩ := Res.ok.inj h
    exact ⟨by omega, hoff, rfl, fun h0 => absurd h0 (by omega)⟩
  | succ n ih =>
    intro p off o sigs hoff h
    obtain ⟨sig, o1, hsig, h⟩ := andThen_eq_ok.mp h
    obtain ⟨hle, rfl, rfl⟩ := take_eq_ok.mp hsig
    obtain ⟨rest, o2, hrest, h⟩ := andThen_eq_ok.mp h
    obtain ⟨rfl, rfl⟩ := Res.ok.inj h
    obtain ⟨hend, hin, hlen, -⟩ := ih hle hrest
    exact ⟨by omega, hin, by rw [List.length_cons, hlen], fun _ => rfl⟩

/-- A short length is one byte. -/
theorem cu16_small {p : List UInt8} {off o v : Nat} (hoff : off ≤ p.length) (h : cu16 p off = .ok v o)
    (hv : v < 128) : o = off + 1 ∧ p[off]? = some (UInt8.ofNat v) := by
  have hdec := refines_cu16 _ _ _ _ hoff h
  obtain ⟨b, hdrop, -, rfl⟩ := cu16Dec_small hdec hv
  obtain ⟨hb, hlt, hrest⟩ := byteAt_of_drop hdrop
  have hin := stable_cu16.within hoff h
  have hlen := congrArg List.length hrest
  rw [List.length_drop, List.length_drop] at hlen
  have hget : p[off]? = some b := by
    rw [List.getElem?_eq_getElem hlt]
    rw [byteAt, List.getD_eq_getElem?_getD, List.getElem?_eq_getElem hlt, Option.getD_some] at hb
    rw [hb]
  refine ⟨by omega, ?_⟩
  rw [hget, UInt8.ofNat_toNat]

/-- The message keeps the signatures it was given. -/
theorem frameMessage_sigs {versioned : Bool} {sigs : List (List UInt8)} {nsig : UInt8} {p : List UInt8}
    {off o : Nat} {tx : V0Tx} (h : frameMessage versioned sigs nsig p off = .ok tx o) :
    tx.sigs = sigs := by
  obtain ⟨_, _, -, h⟩ := andThen_eq_ok.mp h
  obtain ⟨_, _, -, h⟩ := andThen_eq_ok.mp h
  obtain ⟨_, _, -, h⟩ := andThen_eq_ok.mp h
  split at h
  · exact absurd h (by simp [bad])
  · obtain ⟨_, _, -, h⟩ := andThen_eq_ok.mp h
    obtain ⟨_, _, -, h⟩ := andThen_eq_ok.mp h
    obtain ⟨_, _, -, h⟩ := andThen_eq_ok.mp h
    split at h
    · exact absurd h (by simp [bad])
    · obtain ⟨_, _, -, h⟩ := andThen_eq_ok.mp h
      obtain ⟨_, _, -, h⟩ := andThen_eq_ok.mp h
      obtain ⟨rfl, -⟩ := Res.ok.inj h
      rfl

/-- **A legacy or v0 transaction: one length byte, then the first signature.** -/
theorem frameTx_sig0 {p : List UInt8} {start o : Nat} {f : FramedTx} (hoff : start ≤ p.length)
    (h : frameTx p start = .ok f o) :
    ∃ nsig, 1 ≤ nsig ∧ nsig ≤ txSigMax ∧ cu16 p start = .ok nsig (start + 1) ∧
      p[start]? = some (UInt8.ofNat nsig) ∧ start + 1 + 64 ≤ p.length ∧
      f.tx.sigs.head? = some (field p (start + 1) 64) := by
  obtain ⟨nsig, o1, hn, h⟩ := andThen_eq_ok.mp h
  split at h
  · exact absurd h (by simp [bad])
  · rename_i hrange
    rw [not_or, Nat.not_lt, Nat.not_lt] at hrange
    obtain ⟨rfl, hbyte⟩ := cu16_small hoff hn (by simp only [txSigMax] at hrange; omega)
    have hin := stable_cu16.within hoff hn
    obtain ⟨sigs, o2, hsigs, h⟩ := andThen_eq_ok.mp h
    obtain ⟨versioned, o3, -, h⟩ := andThen_eq_ok.mp h
    obtain ⟨tx, o4, htx, h⟩ := andThen_eq_ok.mp h
    obtain ⟨rfl, -⟩ := Res.ok.inj h
    obtain ⟨hend, hle, -, hhead⟩ := times_signature nsig hin hsigs
    refine ⟨nsig, hrange.1, hrange.2, hn, hbyte, by omega, ?_⟩
    rw [frameMessage_sigs htx]
    exact hhead hrange.1

/-- What the bodies of the instructions take. -/
theorem each_v1Body {naddr : Nat} : ∀ (heads : List V1Head) {p : List UInt8} {off o : Nat}
    {ixs : List CompiledIx}, each (v1Body naddr) heads p off = .ok ixs o → o = off + payload heads := by
  intro heads
  induction heads with
  | nil =>
    intro p off o ixs h
    obtain ⟨-, rfl⟩ := Res.ok.inj h
    rfl
  | cons head heads ih =>
    intro p off o ixs h
    obtain ⟨ix, o1, hix, h⟩ := andThen_eq_ok.mp h
    obtain ⟨rest, o2, hrest, h⟩ := andThen_eq_ok.mp h
    obtain ⟨-, rfl⟩ := Res.ok.inj h
    obtain ⟨body, o3, hbody, hix⟩ := andThen_eq_ok.mp hix
    obtain ⟨-, -, rfl⟩ := take_eq_ok.mp hbody
    have ho1 : o1 = off + (head.nacct + head.dlen) := by
      split at hix
      · exact absurd hix (by simp [bad])
      · exact (Res.ok.inj hix).2.symm
    have hsum : payload (head :: heads) = head.nacct + head.dlen + payload heads := rfl
    have := ih hrest
    omega

/-- The end of a version 1 transaction: its signatures, within the largest size. -/
theorem v1Tail_sig0 {start ninstr : Nat} {nsig : UInt8} {keys : List Mint} {p : List UInt8} {off o : Nat}
    {t : V1Tx} (hstart : start ≤ off) (hoff : off ≤ p.length)
    (h : v1Tail start nsig keys ninstr p off = .ok t o) :
    t.nsig = nsig ∧ off + 64 * nsig.toNat ≤ o ∧ o ≤ start + txV1Max ∧
      (0 < nsig.toNat → t.sigs.head? = some (field p (o - 64 * nsig.toNat) 64)) := by
  obtain ⟨heads, o1, hheads, h⟩ := andThen_eq_ok.mp h
  have hstable := ((stable_take 4).andThen fun h => stable_ret (⟨byteAt h 0, (byteAt h 1).toNat,
    (byteAt h 2).toNat + 256 * (byteAt h 3).toNat⟩ : V1Head)).times ninstr
  have hle1 := hstable.le hheads
  have hin1 := hstable.within hoff hheads
  split at h
  · exact absurd h (by simp [bad])
  · obtain ⟨off', o2, hpos, h⟩ := andThen_eq_ok.mp h
    obtain ⟨rfl, rfl⟩ := Res.ok.inj hpos
    split at h
    · exact absurd h (by simp [bad])
    · rename_i hproj
      obtain ⟨u, o3, hav, h⟩ := andThen_eq_ok.mp h
      have hle3 := (stable_avail _).within hin1 hav
      have hge3 := (stable_avail _).le hav
      have ho3 : o3 = o1 := (avail_eq_ok.mp hav).2
      obtain ⟨ixs, o4, hixs, h⟩ := andThen_eq_ok.mp h
      obtain ⟨sigs, o5, hsigs, h⟩ := andThen_eq_ok.mp h
      obtain ⟨rfl, rfl⟩ := Res.ok.inj h
      have ho4 := each_v1Body heads hixs
      have hin4 := (Stable.each (stable_v1Body keys.length) heads).within hle3 hixs
      obtain ⟨hend, -, -, hhead⟩ := times_signature nsig.toNat hin4 hsigs
      have hsig : o5 - 64 * nsig.toNat = o4 := by omega
      refine ⟨rfl, by omega, by omega, fun hpos => ?_⟩
      rw [hsig]
      exact hhead hpos

/-- **A version 1 transaction: its signatures are the last it has, and it is not
larger than `TX_V1_MAX`.** -/
theorem frameV1_sig0 {p : List UInt8} {start o : Nat} {t : V1Tx} (hoff : start ≤ p.length)
    (h : frameV1 p start = .ok t o) :
    1 ≤ t.nsig.toNat ∧ start + 1 + 64 * t.nsig.toNat ≤ o ∧ o ≤ start + txV1Max ∧ o ≤ p.length ∧
      t.sigs.head? = some (field p (o - 64 * t.nsig.toNat) 64) := by
  have hin := stable_frameV1.within hoff h
  obtain ⟨b, o1, hb, h⟩ := andThen_eq_ok.mp (show frameV1From start p start = .ok t o from h)
  have hle1 := consumes_byte hb
  have hin1 := stable_byte.within hoff hb
  split at h
  · exact absurd h (by simp [bad])
  · obtain ⟨hd, o2, hhd, h⟩ := andThen_eq_ok.mp h
    have hle2 := (stable_take _).le hhd
    have hin2 := (stable_take _).within hin1 hhd
    split at h
    · exact absurd h (by simp [bad])
    · split at h
      · exact absurd h (by simp [bad])
      · split at h
        · exact absurd h (by simp [bad])
        · rename_i hhdr
          rw [Bool.not_eq_false] at hhdr
          have hnsig : 1 ≤ (byteAt hd 0).toNat := (of_decide_eq_true hhdr).1
          obtain ⟨keys, o3, hkeys, h⟩ := andThen_eq_ok.mp h
          have hle3 := (stable_key.times _).le hkeys
          have hin3 := (stable_key.times _).within hin2 hkeys
          split at h
          · exact absurd h (by simp [bad])
          · obtain ⟨cfg, o4, hcfg, h⟩ := andThen_eq_ok.mp h
            have hle4 := (stable_take _).le hcfg
            have hin4 := (stable_take _).within hin3 hcfg
            obtain ⟨hn, hfirst, hsize, hhead⟩ := v1Tail_sig0 (show start ≤ o4 by omega) hin4 h
            rw [hn]
            exact ⟨hnsig, by omega, hsize, hin, hhead hnsig⟩

/-! ## §3. Sound and complete. -/

theorem mem_sigPlaces {p sig : List UInt8} {sigPos : Nat} :
    sigPos ∈ sigPlaces p sig ↔ sigPos + 64 ≤ p.length ∧ field p sigPos 64 = sig := by
  rw [sigPlaces, List.mem_filter, List.mem_range, decide_eq_true_eq]
  exact and_congr_left fun _ => by omega

/-- A hit before the signature is a legacy or v0 transaction with it. -/
theorem tryBack_sound {p sig : List UInt8} {sigPos back o : Nat} {hit : FrameHit}
    (h : tryBack p sig sigPos back = .ok hit o) :
    frameTryAt p hit.txOff = .ok hit hit.txEnd ∧ firstSig p hit.txOff = some sig := by
  unfold tryBack at h
  split at h
  · exact absurd h (by simp)
  · simp only at h
    split at h
    · exact absurd h (by simp)
    · exact absurd h (by simp)
    · rename_i nsig o' hn
      split at h
      · exact absurd h (by simp)
      · rename_i hshape
        split at h
        · exact absurd h (by simp)
        · rename_i hroom
          split at h
          · exact absurd h (by simp)
          · rename_i hsig
            rw [not_not] at hsig
            rw [not_or, not_or, not_not, Nat.not_lt, Nat.not_lt] at hshape
            obtain ⟨hlt, hoff, hend, -⟩ := frameTry_span h
            have hsmall := cu16_small (Nat.le_of_lt hlt) hn (by
              have := hshape.2.2
              simp only [txSigMax] at this
              omega)
            -- a length byte of at most 12 is not the prefix of version 1
            have hv1 : p[sigPos - back]? ≠ some txV1Prefix := by
              rw [hsmall.2]
              intro heq
              have hval := congrArg UInt8.toNat (Option.some.inj heq)
              have hmax := hshape.2.2
              rw [UInt8.toNat_ofNat', Nat.mod_eq_of_lt (by simp only [txSigMax] at hmax; omega)] at hval
              have hprefix : txV1Prefix.toNat = 129 := rfl
              simp only [txSigMax] at hmax
              omega
            have hparse : frameParse true p (sigPos - back) = .ok hit o := by
              unfold frameTryAt frameTry at h
              rwa [if_neg hv1] at h
            obtain ⟨f, hf, -⟩ := frameParse_eq_ok.mp hparse
            obtain ⟨nsig', -, -, -, -, -, hhead⟩ := frameTx_sig0 (Nat.le_of_lt hlt) hf
            have hback : back = 1 := by omega
            refine ⟨by rw [hoff, hend]; exact h, ?_⟩
            rw [hoff, firstSig, if_neg hv1, hf]
            simp only
            rw [hhead, ← hsig, hback]

/-- A hit found backwards is a version 1 transaction with the signature. -/
theorem tryV1_sound {p : List UInt8} {sigPos s o : Nat} {hit : FrameHit}
    (h : tryV1 true p sigPos s = .ok hit o) :
    frameTryAt p hit.txOff = .ok hit hit.txEnd ∧ firstSig p hit.txOff = some (field p sigPos 64) := by
  unfold tryV1 at h
  split at h
  · exact absurd h (by simp)
  · rename_i hv1
    rw [not_not] at hv1
    split at h
    · exact absurd h (by simp)
    · exact absurd h (by simp)
    · rename_i hit' o' hparse
      split at h
      · exact absurd h (by simp)
      · rename_i hplace
        obtain ⟨rfl, rfl⟩ := Res.ok.inj h
        rw [not_or, not_not] at hplace
        have htry : frameTryAt p s = .ok hit' o' := by
          unfold frameTryAt frameTry
          rw [if_pos hv1]
          exact hparse
        obtain ⟨hlt, hoff, hend, -⟩ := frameTry_span htry
        obtain ⟨t, ht, rfl, -⟩ := frameParseV1_eq_ok.mp hparse
        obtain ⟨-, -, -, -, hhead⟩ := frameV1_sig0 (Nat.le_of_lt hlt) ht
        refine ⟨htry, ?_⟩
        show firstSig p s = _
        rw [firstSig, if_pos hv1, ht]
        simp only
        rw [hhead, ← hplace.2]
        rfl

theorem aroundAt_sound {p sig : List UInt8} {sigPos o : Nat} {hit : FrameHit}
    (hsig : field p sigPos 64 = sig) (h : aroundAt p sig sigPos = .ok hit o) :
    frameTryAt p hit.txOff = .ok hit hit.txEnd ∧ firstSig p hit.txOff = some sig := by
  have hmem := mem_of_firstOk h
  simp only [List.mem_cons, List.not_mem_nil, or_false] at hmem
  rcases hmem with h' | h' | h' | h'
  · exact tryBack_sound h'.symm
  · exact tryBack_sound h'.symm
  · exact tryBack_sound h'.symm
  · unfold frameV1FromSig0 at h'
    split at h'
    · exact absurd h' (by simp)
    · obtain ⟨s, -, hs⟩ := List.mem_map.mp (mem_of_firstOk h'.symm)
      rw [← hsig]
      exact tryV1_sound hs

/-- A legacy or v0 transaction is found one byte before its first signature. -/
theorem tryBack_complete {p sig : List UInt8} {start o : Nat} {hit : FrameHit}
    (hv1 : p[start]? ≠ some txV1Prefix) (h : frameTryAt p start = .ok hit o)
    (hsig : firstSig p start = some sig) :
    start + 1 ∈ sigPlaces p sig ∧ tryBack p sig (start + 1) 1 = .ok hit o := by
  obtain ⟨hlt, -, -, -⟩ := frameTry_span h
  have hparse : frameParse true p start = .ok hit o := by
    unfold frameTryAt frameTry at h
    rwa [if_neg hv1] at h
  obtain ⟨f, hf, -⟩ := frameParse_eq_ok.mp hparse
  obtain ⟨nsig, hone, hmax, hn, -, hroom, hhead⟩ := frameTx_sig0 (Nat.le_of_lt hlt) hf
  have hfield : field p (start + 1) 64 = sig := by
    rw [firstSig, if_neg hv1, hf] at hsig
    simp only at hsig
    rw [hhead] at hsig
    exact Option.some.inj hsig
  refine ⟨mem_sigPlaces.mpr ⟨hroom, hfield⟩, ?_⟩
  unfold tryBack
  rw [if_neg (by omega), Nat.add_sub_cancel]
  simp only [hn]
  rw [if_neg (by omega), if_neg (by omega), if_neg (not_not.mpr hfield)]
  exact h

/-- A version 1 transaction is found backwards from its first signature. -/
theorem tryV1_complete {p sig : List UInt8} {start o : Nat} {hit : FrameHit}
    (hv1 : p[start]? = some txV1Prefix) (h : frameTryAt p start = .ok hit o)
    (hsig : firstSig p start = some sig) :
    ∃ sigPos ∈ sigPlaces p sig, ∃ hit' o', frameV1FromSig0 true p sigPos = .ok hit' o' := by
  obtain ⟨hlt, -, -, -⟩ := frameTry_span h
  have hparse : frameParseV1 true p start = .ok hit o := by
    unfold frameTryAt frameTry at h
    rwa [if_pos hv1] at h
  obtain ⟨t, ht, rfl, -⟩ := frameParseV1_eq_ok.mp hparse
  obtain ⟨hone, hfirst, hsize, hin, hhead⟩ := frameV1_sig0 (Nat.le_of_lt hlt) ht
  have hfield : field p (o - 64 * t.nsig.toNat) 64 = sig := by
    rw [firstSig, if_pos hv1, ht] at hsig
    simp only at hsig
    rw [hhead] at hsig
    exact Option.some.inj hsig
  have hroom : o - 64 * t.nsig.toNat + 64 ≤ p.length := by omega
  refine ⟨o - 64 * t.nsig.toNat, mem_sigPlaces.mpr ⟨hroom, hfield⟩, ?_⟩
  have htry : tryV1 true p (o - 64 * t.nsig.toNat) start = .ok (t.hit start o) o := by
    have hpos : ¬ (t.hit start o).nsig < 1 := by
      rw [UInt8.lt_iff_toNat_lt]
      show ¬ t.nsig.toNat < 1
      omega
    have hplace : ¬ (t.hit start o).txEnd - 64 * (t.hit start o).nsig.toNat ≠ o - 64 * t.nsig.toNat :=
      not_not.mpr rfl
    unfold tryV1
    rw [if_neg (not_not.mpr hv1), hparse]
    simp only
    rw [if_neg (not_or.mpr ⟨hpos, hplace⟩)]
  unfold frameV1FromSig0
  rw [if_neg (Nat.not_lt.mpr hroom)]
  refine firstOk_of_mem (List.mem_map.mpr ⟨start, ?_, htry⟩)
  -- the start is within `TX_V1_MAX` of the end of the first signature
  rw [List.mem_range'_1]
  split <;> omega

/-- **Framing around a signature is sound and complete.** -/
theorem frameAroundSig_spec (p : List UInt8) (sig : Vector UInt8 64) :
    (∀ hit, frameAroundSig p sig = .framed hit →
      frameTryAt p hit.txOff = .ok hit hit.txEnd ∧ firstSig p hit.txOff = some sig.toList) ∧
    ((∃ start hit o, frameTryAt p start = .ok hit o ∧ firstSig p start = some sig.toList) →
      ∃ hit, frameAroundSig p sig = .framed hit) := by
  constructor
  · intro hit h
    unfold frameAroundSig at h
    split at h
    · exact absurd h (by simp)
    · split at h
      · rename_i hit' o hfirst
        obtain rfl := FrameClass.framed.inj h
        obtain ⟨sigPos, hplace, haround⟩ := List.mem_map.mp (mem_of_firstOk hfirst)
        exact aroundAt_sound (mem_sigPlaces.mp hplace).2 haround
      · exact absurd h (by simp)
      · split at h <;> exact absurd h (by simp)
  · rintro ⟨start, hit, o, htry, hsig⟩
    -- one place of the signature answers with a hit
    obtain ⟨sigPos, hplace, hit', o', haround⟩ : ∃ sigPos ∈ sigPlaces p sig.toList, ∃ hit' o',
        aroundAt p sig.toList sigPos = .ok hit' o' := by
      by_cases hv1 : p[start]? = some txV1Prefix
      · obtain ⟨sigPos, hplace, hit', o', hfound⟩ := tryV1_complete hv1 htry hsig
        refine ⟨sigPos, hplace, firstOk_of_mem (x := hit') (o := o') ?_⟩
        rw [← hfound]
        simp
      · obtain ⟨hplace, hfound⟩ := tryBack_complete hv1 htry hsig
        refine ⟨start + 1, hplace, firstOk_of_mem (x := hit) (o := o) ?_⟩
        rw [← hfound]
        simp
    have hlen : ¬ p.length < 65 := by
      obtain ⟨hlt, -, -, -⟩ := frameTry_span htry
      by_cases hv1 : p[start]? = some txV1Prefix
      · have hparse : frameParseV1 true p start = .ok hit o := by
          unfold frameTryAt frameTry at htry
          rwa [if_pos hv1] at htry
        obtain ⟨t, ht, -⟩ := frameParseV1_eq_ok.mp hparse
        obtain ⟨hone, hfirst, -, hin, -⟩ := frameV1_sig0 (Nat.le_of_lt hlt) ht
        omega
      · obtain ⟨hin, -⟩ := mem_sigPlaces.mp (tryBack_complete hv1 htry hsig).1
        omega
    obtain ⟨y, o'', hfirst⟩ := firstOk_of_mem (List.mem_map.mpr ⟨sigPos, hplace, haround⟩)
    refine ⟨y, ?_⟩
    unfold frameAroundSig
    rw [if_neg hlen, hfirst]

end ShredArb.Framing
