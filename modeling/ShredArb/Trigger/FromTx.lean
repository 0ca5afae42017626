/-
  ShredArb.Trigger.FromTx — the other way from a transaction to its swap
  (`swapix_from_tx`, `swapix_from_msg`, `copy_sig` of `arb-core/src/swapix.c`).

  `swapix_from_tx` walks the header itself, in the buffer; the trigger path has
  the transaction framed and hands the framed slice to `swapix_from_loaded`.  A
  scan does not look past what it accepts, so the slice frames as the buffer
  does (`Shifts`), and both walks are one fold over the frame's instructions.

  Conventions:
    • `mk.keys` points at the keys of the message, as `swapix_from_tx` sets it,
    • a length is below 2¹⁶, as the parameter's type says; offsets kept in 16
      bits are cut here too.

  Main results:
    * `swapWalk_framed` — the walk over framed instructions is a fold,
    * `frameV1_layout` — a framed version 1 transaction has its layout,
    * `swapixFromTx_eq_trigger` — the two paths agree on legacy and version 1.
-/
import ShredArb.Trigger.Resolve

namespace ShredArb.Trigger

open ShredArb.Univ ShredArb.Bytes ShredArb.Tx ShredArb.Pump ShredArb.Scan ShredArb.Framing

/-! ## §1. The path over the buffer. -/

/-- `copy_sig`: the signatures end at `msg_off`. -/
def copySig (p : List UInt8) (nsig : UInt8) (msgOff : Nat) : Option (List UInt8) :=
  if nsig.toNat < 1 then none
  else if msgOff < 64 * nsig.toNat then none
  else if msgOff - 64 * nsig.toNat + 64 > p.length then none
  else some (field p (msgOff - 64 * nsig.toNat) 64)

/-- `memcpy(out->sig, ..)`. -/
def withSig (s : SwapIx) (sig : List UInt8) : SwapIx := { s with sig := BitVec.ofNat 512 (leNat sig) }

section Paths

variable (sha256 : List UInt8 → Vector UInt8 32)

/-- `swapix_from_v1`; without loaded keys the static ones. -/
def swapixFromV1At (p : List UInt8) (start : Nat) (loaded : Option (List Mint)) : Option SwapIx :=
  (frameV1Layout p start).bind fun l =>
    swapFirst sha256 (loaded.getD (staticKeys p l.keysOff l.naddr))
      ((List.range l.ninstr).map (frameV1Ix p l))

/-- `swapix_from_msg`; its loop is the one of `swapix_from_loaded`. -/
def swapixFromMsg (p : List UInt8) (mk : MsgKeys) : Option SwapIx :=
  let keys := staticKeys p mk.keysOff mk.nkeys
  if mk.versioned = frameVerV1 then
    if mk.keysOff < txV1HdrSize then none
    else swapixFromV1At sha256 p (mk.keysOff - txV1HdrSize) (some keys)
  else
    let off := mk.keysOff + 32 * mk.nkeys
    if off + 32 > p.length then none
    else (cu16At p (off + 32)).bind fun (ninstr, used) =>
      if ninstr = 0 ∨ ninstr > txInstrMax then none
      else swapWalk sha256 p keys ninstr (off + 32 + used)

/-- `swapix_from_tx`. -/
def swapixFromTx (p : List UInt8) (start : Nat) : Option SwapIx :=
  let len := p.length
  if start < len ∧ byteAt p start = txV1Prefix then
    (swapixFromV1At sha256 p start none).bind fun s => (frameV1Layout p start).bind fun l =>
      (copySig p l.nsig (l.txEnd % 2 ^ 16)).map (withSig s)
  else if start + 134 > len then none
  else
    let nsig := byteAt p start
    let msg := start + 1 + 64 * nsig.toNat
    if nsig &&& 0x80 ≠ 0 then none
    else if nsig.toNat < 1 ∨ nsig.toNat > txSigMax then none
    else if msg ≥ len then none
    else (txoVersion p msg nsig).bind fun (versioned, i) =>
      if i + 2 > len then none
      else (cu16At p (i + 2)).bind fun (nkeys, used) =>
        let keysOff := i + 2 + used
        if headerOk nsig (byteAt p i) (byteAt p (i + 1)) nkeys = false then none
        else if keysOff + 32 * nkeys + 32 > len then none
        else (swapixFromMsg sha256 p ⟨keysOff % 2 ^ 16, nkeys, versioned⟩).bind fun s =>
          (copySig p nsig (msg % 2 ^ 16)).map (withSig s)

/-- The trigger path over the static keys: `swapix_from_loaded` on the framed
slice, then `copy_sig0`, as at the end of `trigger_eval_at`. -/
def swapixFromFrame (p : List UInt8) (start : Nat) (fh : FrameHit) : Option SwapIx :=
  (keysOffset p start fh).bind fun keysOff =>
    (decodeLoaded sha256 p start keysOff fh (staticKeys p keysOff fh.nkeys)).map Prod.fst

end Paths

/-! ## §2. Lengths and slices. -/

/-- A length the frame has read is read under every bound it fits into. -/
theorem cu16Avail_of_scan {p : List UInt8} {off v o avail : Nat} (hoff : off ≤ p.length)
    (h : Framing.cu16 p off = .ok v o) (hfit : o ≤ off + avail) :
    cu16Avail p off avail = some (v, o - off) := by
  have hle := stable_cu16.le h
  have hin := stable_cu16.within hoff h
  obtain ⟨c, hc, hreads⟩ := cu16Dec_reads (refines_cu16 p off v o hoff h)
  have hlen : c.length = o - off := by
    have := congrArg List.length hc
    rw [List.length_append, List.length_drop, List.length_drop] at this
    omega
  have hfield : field p off avail = c ++ (p.drop o).take (avail - c.length) := by
    rw [field, hc, List.take_append, List.take_of_length_le (by omega)]
  unfold cu16Avail
  rw [hfield]
  simp only
  rw [hreads, Option.map_some, List.length_append, Nat.add_sub_cancel, hlen]

theorem cu16At_of_scan {p : List UInt8} {off v o : Nat} (hlen : p.length < 2 ^ 16)
    (hoff : off ≤ p.length) (h : Framing.cu16 p off = .ok v o) : cu16At p off = some (v, o - off) := by
  have hin := stable_cu16.within hoff h
  rw [cu16At, Nat.mod_eq_of_lt (by omega)]
  exact cu16Avail_of_scan hoff h (by omega)

/-- A length takes three bytes at most. -/
theorem cu16_width {p : List UInt8} {off v o : Nat} (hoff : off ≤ p.length)
    (h : Framing.cu16 p off = .ok v o) : o ≤ off + 3 := by
  have hin := stable_cu16.within hoff h
  have hlen : ∀ c : List UInt8, p.drop off = c ++ p.drop o → o = off + c.length := by
    intro c hc
    have := congrArg List.length hc
    rw [List.length_append, List.length_drop, List.length_drop] at this
    omega
  rcases cu16Dec_cases (refines_cu16 p off v o hoff h) with ⟨b0, hc, -⟩ | ⟨b0, b1, hc, -⟩ |
    ⟨b0, b1, b2, hc, -⟩
  · have := hlen [b0] hc
    simp only [List.length_cons, List.length_nil] at this
    omega
  · have := hlen [b0, b1] hc
    simp only [List.length_cons, List.length_nil] at this
    omega
  · have := hlen [b0, b1, b2] hc
    simp only [List.length_cons, List.length_nil] at this
    omega

section Slices

variable {d : Nat}

theorem shifts_cu16 : Shifts d Framing.cu16 Framing.cu16 :=
  shifts_byte.andThen fun _ => (shifts_ret _).ite (shifts_byte.andThen fun _ =>
    ((shifts_bad _).ite (shifts_ret _)).ite (shifts_byte.andThen fun _ =>
      (shifts_bad _).ite (shifts_ret _)))

theorem shifts_key : Shifts d Framing.key Framing.key := (shifts_take 32).andThen fun _ => shifts_ret _

theorem shifts_frameIx (versioned : Bool) (nkeys : Nat) :
    Shifts d (Framing.frameIx versioned nkeys) (Framing.frameIx versioned nkeys) :=
  shifts_byte.andThen fun _ => (shifts_bad _).ite (shifts_cu16.andThen fun _ => (shifts_bad _).ite
    ((shifts_take _).andThen fun _ => (shifts_bad _).ite (shifts_cu16.andThen fun _ =>
      (shifts_take _).andThen fun _ => shifts_ret _)))

theorem shifts_v1Body (naddr : Nat) (h : V1Head) : Shifts d (v1Body naddr h) (v1Body naddr h) :=
  (shifts_take _).andThen fun _ => (shifts_bad _).ite (shifts_ret _)

theorem shifts_v1Tail {start : Nat} (hstart : d ≤ start) (nsig : UInt8) (keys : List Mint) (ninstr : Nat) :
    Shifts d (v1Tail start nsig keys ninstr) (v1Tail (start - d) nsig keys ninstr) := by
  refine (((shifts_take 4).andThen fun _ => shifts_ret _).times ninstr).andThen fun heads =>
    (shifts_bad _).ite (shifts_pos fun off hd => ?_)
  -- the size is the same from either start
  have hsize : off - d - (start - d) = off - start := by omega
  rw [hsize]
  refine (shifts_bad _).ite (shifts_avail ?_ ?_)
  · exact (Shifts.each (shifts_v1Body _) _).andThen fun _ => ((shifts_take 64).times _).andThen fun _ =>
      shifts_ret _
  · intro p off y o h
    obtain ⟨ixs, o1, hixs, h⟩ := andThen_eq_ok.mp h
    rw [← each_v1Body heads hixs]
    exact (((stable_take 64).times _).andThen fun _ => stable_ret _).le h

/-- **A version 1 transaction is framed in its slice.** -/
theorem shifts_frameV1 : Shifts d frameV1 frameV1 :=
  shifts_pos fun _ hd => shifts_byte.andThen fun _ => (shifts_bad _).ite ((shifts_take _).andThen fun _ =>
    (shifts_bad _).ite ((shifts_bad _).ite ((shifts_bad _).ite ((shifts_key.times _).andThen fun _ =>
      (shifts_bad _).ite ((shifts_take _).andThen fun _ => shifts_v1Tail hd _ _ _)))))

end Slices

/-! ## §3. The walk over framed instructions. -/

section Walks

variable (sha256 : List UInt8 → Vector UInt8 32)

/-- What decodes has an amount. -/
theorem decodeIx_amountIn {proto : UInt8} {keys : List Mint} {ix : CompiledIx} {s : SwapIx}
    (h : decodeIx sha256 proto keys ix = some s) : s.amountIn ≠ 0 := by
  rw [decodeIx] at h
  extract_lets a b disc at h
  obtain ⟨-, h⟩ := Option.ite_none_left_eq_some.mp h
  obtain ⟨ha, h⟩ := Option.ite_none_left_eq_some.mp h
  split at h
  · obtain ⟨variant, -, h⟩ := Option.bind_eq_some_iff.mp h
    obtain ⟨dir, -, rfl⟩ := Option.map_eq_some_iff.mp h
    exact ha
  · obtain ⟨-, h⟩ := Option.ite_none_right_eq_some.mp h
    obtain ⟨-, h⟩ := Option.ite_none_left_eq_some.mp h
    split at h
    · rw [← Option.some.inj h]
      exact ha
    · obtain ⟨-, h⟩ := Option.ite_none_right_eq_some.mp h
      rw [← Option.some.inj h]
      exact ha

theorem swapFirst_amountIn {loaded : List Mint} {s : SwapIx} : ∀ (ixs : List CompiledIx),
    swapFirst sha256 loaded ixs = some s → s.amountIn ≠ 0 := by
  intro ixs
  induction ixs with
  | nil =>
    intro h
    exact absurd h (by simp [swapFirst])
  | cons ix ixs ih =>
    intro h
    rw [swapFirst] at h
    split at h
    · exact absurd h (by simp)
    · split at h
      · rename_i s' hs
        rw [← Option.some.inj h]
        obtain ⟨-, hs⟩ := Option.ite_none_right_eq_some.mp hs
        obtain ⟨pool, -, hs⟩ := Option.bind_eq_some_iff.mp hs
        obtain ⟨t, ht, rfl⟩ := Option.map_eq_some_iff.mp hs
        show t.amountIn ≠ 0
        exact decodeIx_amountIn sha256 ht
      · exact ih h

/-- The end of the trigger path: what decodes has an amount, so the check on it
never refuses. -/
theorem decoded_withSig (loaded : List Mint) (ixs : List CompiledIx) (sig : List UInt8) :
    (((swapFirst sha256 loaded ixs).bind fun s => (some sig).bind fun sig =>
        if s.amountIn ≠ 0 then some ({ s with sig := BitVec.ofNat 512 (leNat sig) }, sig)
        else none).map Prod.fst)
      = (swapFirst sha256 loaded ixs).map fun s => withSig s sig := by
  cases hs : swapFirst sha256 loaded ixs with
  | none => rfl
  | some s =>
    rw [Option.bind_some, Option.bind_some, if_pos (swapFirst_amountIn sha256 ixs hs)]
    rfl

/-- **The walk over framed legacy instructions is a fold over them.** -/
theorem swapWalk_framed {keys : List Mint} {p : List UInt8} (hlen : p.length < 2 ^ 16) :
    ∀ (n : Nat) {off o : Nat} {ixs : List CompiledIx}, off ≤ p.length →
      times (Framing.frameIx false keys.length) n p off = .ok ixs o →
      swapWalk sha256 p keys n off = swapFirst sha256 keys ixs := by
  intro n
  induction n with
  | zero =>
    intro off o ixs _ h
    obtain ⟨rfl, -⟩ := Res.ok.inj h
    rfl
  | succ n ih =>
    intro off o ixs hoff h
    obtain ⟨ix, o1, hix, h⟩ := andThen_eq_ok.mp h
    have hin := (stable_frameIx false keys.length).within hoff hix
    obtain ⟨rest, o2, hrest, h⟩ := andThen_eq_ok.mp h
    obtain ⟨rfl, -⟩ := Res.ok.inj h
    -- the frame's own reading of the instruction
    obtain ⟨prog, o3, hprog, hix⟩ := andThen_eq_ok.mp hix
    obtain ⟨rfl, hlt, rfl⟩ := byte_byteAt hprog
    split at hix
    · exact absurd hix (by simp [bad])
    · rename_i hstatic
      have hp : ¬(byteAt p off).toNat ≥ keys.length := fun hge => hstatic ⟨rfl, hge⟩
      obtain ⟨nacct, o4, hnacct, hix⟩ := andThen_eq_ok.mp hix
      have hle4 := stable_cu16.le hnacct
      split at hix
      · exact absurd hix (by simp [bad])
      · rename_i hsmall
        obtain ⟨accounts, o5, hacc, hix⟩ := andThen_eq_ok.mp hix
        obtain ⟨hfit, rfl, rfl⟩ := take_eq_ok.mp hacc
        split at hix
        · exact absurd hix (by simp [bad])
        · obtain ⟨dlen, o6, hdlen, hix⟩ := andThen_eq_ok.mp hix
          have hle6 := stable_cu16.le hdlen
          obtain ⟨data, o7, hdata, hix⟩ := andThen_eq_ok.mp hix
          obtain ⟨hfit', rfl, rfl⟩ := take_eq_ok.mp hdata
          obtain ⟨rfl, rfl⟩ := Res.ok.inj hix
          -- the walk reads the same
          have hacc' : off + 1 + (o4 - (off + 1)) = o4 := by omega
          have hdata' : o4 + nacct + (o6 - (o4 + nacct)) = o6 := by omega
          rw [swapWalk, if_neg (by omega), if_neg hp, cu16At_of_scan hlen hlt hnacct, Option.bind_some]
          simp only [hacc']
          rw [if_neg (by omega), cu16At_of_scan hlen hfit hdlen, Option.bind_some]
          simp only [hdata']
          rw [if_neg (by omega), swapFirst, if_neg hp, ih hin hrest]

end Walks

/-! ## §4. Legacy. -/

/-- A legacy message starts with its number of signers. -/
theorem frameVersion_false {nsig : UInt8} {p : List UInt8} {off o : Nat}
    (h : frameVersion nsig p off = .ok false o) :
    byteAt p off = nsig ∧ nsig &&& 0x80 = 0 ∧ off < p.length ∧ o = off + 1 := by
  obtain ⟨b0, o1, hb0, h⟩ := andThen_eq_ok.mp h
  obtain ⟨rfl, hlt, rfl⟩ := byte_byteAt hb0
  split at h
  · split at h
    · exact absurd h (by simp [bad])
    · obtain ⟨n, o2, -, h⟩ := andThen_eq_ok.mp h
      split at h
      · exact absurd h (by simp [bad])
      · exact absurd (Res.ok.inj h).1 (by simp)
  · rename_i hver
    split at h
    · exact absurd h (by simp [bad])
    · rename_i hnsig
      obtain ⟨-, rfl⟩ := Res.ok.inj h
      have hn := not_not.mp hnsig
      exact ⟨hn, hn ▸ not_not.mp hver, hlt, rfl⟩

theorem ofNat_ne_v1Prefix {n : Nat} (h : n ≤ txSigMax) : UInt8.ofNat n ≠ txV1Prefix := by
  simp only [txSigMax] at h
  intro hc
  have hn := congrArg UInt8.toNat hc
  rw [UInt8.toNat_ofNat', Nat.mod_eq_of_lt (by omega)] at hn
  have hprefix : txV1Prefix.toNat = 129 := rfl
  omega

/-- What a slice and its buffer share at the start. -/
theorem byteAt_slice {p : List UInt8} {start len : Nat} {b : UInt8} (h : p[start]? = some b)
    (hlen : 0 < len) : byteAt (field p start len) 0 = b :=
  byteAt_of_getElem? (by rw [getElem?_field hlen, Nat.add_zero, h])

/-- The parts of a framed legacy transaction, in order: it ends with its
instructions. -/
structure LegacyParts (p : List UInt8) (start : Nat) (tx : V0Tx) (nsig keysOff ninstr ixOff o : Nat) :
    Prop where
  range : 1 ≤ nsig ∧ nsig ≤ 12
  nsig8 : (UInt8.ofNat nsig).toNat = nsig
  first : p[start]? = some (UInt8.ofNat nsig)
  signers : Framing.cu16 p start = .ok nsig (start + 1)
  version : byteAt p (start + 1 + 64 * nsig) = UInt8.ofNat nsig
  unversioned : UInt8.ofNat nsig &&& 0x80 = 0
  header : headerOk (UInt8.ofNat nsig) (byteAt p (start + 1 + 64 * nsig + 1))
    (byteAt p (start + 1 + 64 * nsig + 2)) tx.keys.length = true
  count : Framing.cu16 p (start + 1 + 64 * nsig + 3) = .ok tx.keys.length keysOff
  nkeys : 1 ≤ tx.keys.length
  keys : tx.keys = staticKeys p keysOff tx.keys.length
  ixRange : 1 ≤ ninstr ∧ ninstr ≤ 64
  ixCount : Framing.cu16 p (keysOff + 32 * tx.keys.length + 32) = .ok ninstr ixOff
  ixs : times (Framing.frameIx false tx.keys.length) ninstr p ixOff = .ok tx.ixs o
  order : start + 1 + 64 * nsig + 3 < keysOff ∧ keysOff + 32 * tx.keys.length + 32 < ixOff ∧ ixOff ≤ o ∧
    o ≤ p.length

theorem frameTx_legacy {p : List UInt8} {start o : Nat} {f : FramedTx} (hoff : start ≤ p.length)
    (h : frameTx p start = .ok f o) (hver : f.versioned = false) :
    ∃ nsig keysOff ninstr ixOff, LegacyParts p start f.tx nsig keysOff ninstr ixOff o := by
  have hin := stable_frameTx.within hoff h
  obtain ⟨nsig, msg, keysOff, ninstr, ixOff, lutOff, hparts⟩ := frameTx_parts hoff h
  have hversion := hparts.version
  have hixs := hparts.ixs
  have hluts := hparts.luts
  rw [hver] at hversion hixs hluts
  obtain ⟨hb0, hlegacy, -, rfl⟩ := frameVersion_false hversion
  -- a legacy message has no tables
  obtain ⟨-, rfl⟩ := Res.ok.inj hluts
  have hrange := hparts.range
  have hheader := of_decide_eq_true hparts.header
  simp only [txSigMax] at hrange hheader
  have hnsig : (UInt8.ofNat nsig).toNat = nsig := by
    rw [UInt8.toNat_ofNat', Nat.mod_eq_of_lt (by omega)]
  exact ⟨nsig, keysOff, ninstr, ixOff, {
    range := hrange
    nsig8 := hnsig
    first := hparts.first
    signers := hparts.signers
    version := hb0
    unversioned := hlegacy
    header := hparts.header
    count := hparts.count
    nkeys := by omega
    keys := hparts.keys
    ixRange := hparts.ixRange
    ixCount := hparts.ixCount
    ixs := hixs
    order := ⟨consumes_cu16 hparts.count, consumes_cu16 hparts.ixCount,
      ((stable_frameIx false f.tx.keys.length).times ninstr).le hixs, hin⟩ }⟩

section Legacy

variable (sha256 : List UInt8 → Vector UInt8 32)
variable {p : List UInt8} {start nsig keysOff ninstr ixOff o : Nat} {f : FramedTx}

/-- `swapix_from_msg` over the keys of a framed legacy transaction. -/
theorem swapixFromMsg_legacy (hlen : p.length < 2 ^ 16)
    (h : LegacyParts p start f.tx nsig keysOff ninstr ixOff o) :
    swapixFromMsg sha256 p ⟨keysOff, f.tx.keys.length, 0⟩ = swapFirst sha256 f.tx.keys f.tx.ixs := by
  have horder := h.order
  have hrange := h.ixRange
  have hixOff : keysOff + 32 * f.tx.keys.length + 32
      + (ixOff - (keysOff + 32 * f.tx.keys.length + 32)) = ixOff := by omega
  unfold swapixFromMsg
  simp only
  rw [if_neg (by decide), if_neg (by omega), cu16At_of_scan hlen (by omega) h.ixCount, Option.bind_some]
  simp only [hixOff]
  rw [if_neg (by simp only [txInstrMax]; omega), ← h.keys]
  exact swapWalk_framed sha256 hlen ninstr (by omega) h.ixs

/-- **The path over the buffer, on a framed legacy transaction.** -/
theorem swapixFromTx_legacy (hlen : p.length < 2 ^ 16)
    (h : LegacyParts p start f.tx nsig keysOff ninstr ixOff o) :
    swapixFromTx sha256 p start
      = (swapFirst sha256 f.tx.keys f.tx.ixs).map fun s => withSig s (field p (start + 1) 64) := by
  have horder := h.order
  have hrange := h.range
  have hnkeys := h.nkeys
  have hnsig := h.nsig8
  have hprefix : UInt8.ofNat nsig ≠ txV1Prefix := ofNat_ne_v1Prefix hrange.2
  have htxo : txoVersion p (start + 1 + 64 * nsig) (UInt8.ofNat nsig)
      = some (0, start + 1 + 64 * nsig + 1) := by
    unfold txoVersion
    simp only
    rw [h.version, if_neg (not_not.mpr h.unversioned), if_neg (not_not.mpr rfl)]
  have hkeysOff : start + 1 + 64 * nsig + 1 + 2 + (keysOff - (start + 1 + 64 * nsig + 1 + 2))
      = keysOff := by omega
  have hsig : copySig p (UInt8.ofNat nsig) (start + 1 + 64 * nsig)
      = some (field p (start + 1) 64) := by
    rw [copySig, hnsig, if_neg (by omega), if_neg (by omega), if_neg (by omega), Nat.add_sub_cancel]
  unfold swapixFromTx
  simp only [byteAt_of_getElem? h.first, hnsig]
  rw [if_neg fun hc => hprefix hc.2, if_neg (by omega), if_neg (not_not.mpr h.unversioned),
    if_neg (by simp only [txSigMax]; omega), if_neg (by omega), htxo, Option.bind_some]
  simp only
  rw [if_neg (by omega), cu16At_of_scan hlen (by omega) h.count, Option.bind_some]
  simp only [hkeysOff]
  rw [if_neg (by rw [h.header]; simp), if_neg (by omega), Nat.mod_eq_of_lt (by omega),
    swapixFromMsg_legacy sha256 hlen h, Nat.mod_eq_of_lt (by omega), hsig]
  cases swapFirst sha256 f.tx.keys f.tx.ixs <;> rfl

/-- `swapix_from_loaded` on the slice of a framed legacy transaction. -/
theorem swapixFromLoaded_legacy (hlen : p.length < 2 ^ 16)
    (h : LegacyParts p start f.tx nsig keysOff ninstr ixOff o) :
    swapixFromLoaded sha256 (field p start (o - start)) (keysOff - start) f.tx.keys.length f.tx.keys
      = swapFirst sha256 f.tx.keys f.tx.ixs := by
  have horder := h.order
  have hrange := h.ixRange
  have hnkeys := h.nkeys
  have hfits : start + (o - start) ≤ p.length := by omega
  have hqlen : (field p start (o - start)).length = o - start := length_field hfits
  have hq0 : byteAt (field p start (o - start)) 0 ≠ txV1Prefix := by
    rw [byteAt_slice h.first (by omega)]
    exact ofNat_ne_v1Prefix h.range.2
  -- the count and the instructions, read in the slice
  have hcount := shifts_cu16.shift (by omega) hfits h.ixCount (by omega)
  have hixs := ((shifts_frameIx false f.tx.keys.length).times ninstr).shift (by omega) hfits h.ixs
    (by omega)
  have hblock : keysOff + 32 * f.tx.keys.length + 32 - start
      = keysOff - start + 32 * f.tx.keys.length + 32 := by omega
  rw [hblock] at hcount
  have hused : keysOff - start + 32 * f.tx.keys.length + 32
      + (ixOff - start - (keysOff - start + 32 * f.tx.keys.length + 32)) = ixOff - start := by omega
  unfold swapixFromLoaded
  rw [if_neg fun hnil => by rw [hnil, List.length_nil] at hnkeys; omega, if_neg fun hc => hq0 hc.2]
  simp only
  rw [if_neg (by omega), cu16At_of_scan (by omega) (by omega) hcount, Option.bind_some]
  simp only [hused]
  rw [if_neg (by simp only [txInstrMax]; omega)]
  exact swapWalk_framed sha256 (by omega) ninstr (by omega) hixs

/-- **The trigger path, on a framed legacy transaction.** -/
theorem swapixFromFrame_legacy (hlen : p.length < 2 ^ 16) (hver : f.versioned = false)
    (h : LegacyParts p start f.tx nsig keysOff ninstr ixOff o) :
    swapixFromFrame sha256 p start (f.hit start o)
      = (swapFirst sha256 f.tx.keys f.tx.ixs).map fun s => withSig s (field p (start + 1) 64) := by
  have horder := h.order
  have hrange := h.range
  have hhit : (f.hit start o).versioned ≠ frameVerV1 := by
    show (if f.versioned then frameVerV0 else frameVerLegacy) ≠ frameVerV1
    rw [hver]
    decide
  have hoffset : keysOffset p start (f.hit start o) = some keysOff := by
    have hwidth := cu16_width (p := p) (by omega) h.count
    unfold keysOffset
    rw [if_neg hhit, cu16Avail_of_scan (by omega) h.signers (by omega), Option.bind_some]
    simp only [Nat.add_sub_cancel_left]
    rw [h.version, if_neg (not_not.mpr h.unversioned), cu16Avail_of_scan (by omega) h.count (by omega),
      Option.map_some]
    congr 1
    omega
  have hsig : copySig0 p start (f.hit start o) = some (field p (start + 1) 64) := by
    unfold copySig0
    rw [if_neg hhit, cu16Avail_of_scan (by omega) h.signers (by omega), Option.bind_some]
    simp only [Nat.add_sub_cancel_left]
    rw [if_neg]
    show ¬(nsig < 1 ∨ start + 1 + 64 > o)
    omega
  unfold swapixFromFrame decodeLoaded
  rw [hoffset, Option.bind_some, Nat.mod_eq_of_lt (by show o - start < 2 ^ 16; omega),
    Nat.mod_eq_of_lt (by omega)]
  show Option.map Prod.fst ((swapixFromLoaded sha256 (field p start (o - start)) (keysOff - start)
    f.tx.keys.length (staticKeys p keysOff f.tx.keys.length)).bind _) = _
  rw [← h.keys, swapixFromLoaded_legacy sha256 hlen h, hsig]
  exact decoded_withSig sha256 _ _ _

end Legacy

/-! ## §5. Version 1. -/

/-- The header of an instruction, at an offset. -/
def headAt (p : List UInt8) (hdrOff i : Nat) : V1Head :=
  ⟨(v1Header p hdrOff i).1, (v1Header p hdrOff i).2.1, (v1Header p hdrOff i).2.2⟩

/-- The bytes of an instruction, at an offset. -/
def ixAt (p : List UInt8) (hdrOff payOff i : Nat) : CompiledIx :=
  ⟨(headAt p hdrOff i).prog, field p (payOff + v1Payload p hdrOff i) (headAt p hdrOff i).nacct,
    field p (payOff + v1Payload p hdrOff i + (headAt p hdrOff i).nacct) (headAt p hdrOff i).dlen⟩

theorem byteAt_field {p : List UInt8} {off n i : Nat} (h : i < n) :
    byteAt (field p off n) i = byteAt p (off + i) := by
  rw [byteAt, List.getD_eq_getElem?_getD, getElem?_field h, ← List.getD_eq_getElem?_getD, byteAt]

theorem v1Head_eq_ok {p : List UInt8} {off o i : Nat} {head : V1Head}
    (h : v1Head p (off + 4 * i) = .ok head o) : head = headAt p off i ∧ o = off + 4 * (i + 1) := by
  obtain ⟨bs, o1, hbs, h⟩ := andThen_eq_ok.mp h
  obtain ⟨-, rfl, rfl⟩ := take_eq_ok.mp hbs
  obtain ⟨rfl, rfl⟩ := Res.ok.inj h
  refine ⟨?_, by omega⟩
  rw [byteAt_field (by omega), byteAt_field (by omega), byteAt_field (by omega), byteAt_field (by omega)]
  rfl

/-- Headers one after another are the headers at their offsets. -/
theorem times_v1Head {p : List UInt8} {hdrOff : Nat} : ∀ (n : Nat) {i o : Nat} {heads : List V1Head},
    times v1Head n p (hdrOff + 4 * i) = .ok heads o →
    heads = (List.range' i n).map (headAt p hdrOff) ∧ o = hdrOff + 4 * (i + n) := by
  intro n
  induction n with
  | zero =>
    intro i o heads h
    obtain ⟨rfl, rfl⟩ := Res.ok.inj h
    exact ⟨rfl, rfl⟩
  | succ n ih =>
    intro i o heads h
    obtain ⟨head, o1, hhead, h⟩ := andThen_eq_ok.mp h
    obtain ⟨rfl, rfl⟩ := v1Head_eq_ok hhead
    obtain ⟨rest, o2, hrest, h⟩ := andThen_eq_ok.mp h
    obtain ⟨rfl, rfl⟩ := Res.ok.inj h
    obtain ⟨rfl, rfl⟩ := ih hrest
    exact ⟨rfl, by omega⟩

/-- Bodies one after another are the bytes at their offsets, and their accounts
are static keys. -/
theorem each_v1Body_range {p : List UInt8} {hdrOff payOff naddr : Nat} : ∀ (n : Nat) {i o : Nat}
    {ixs : List CompiledIx},
    each (v1Body naddr) ((List.range' i n).map (headAt p hdrOff)) p (payOff + v1Payload p hdrOff i)
      = .ok ixs o →
    ixs = (List.range' i n).map (ixAt p hdrOff payOff) ∧ o = payOff + v1Payload p hdrOff (i + n) ∧
      ∀ j ∈ List.range' i n, ((ixAt p hdrOff payOff j).accounts.any (·.toNat ≥ naddr)) = false := by
  intro n
  induction n with
  | zero =>
    intro i o ixs h
    obtain ⟨rfl, rfl⟩ := Res.ok.inj h
    exact ⟨rfl, rfl, fun j hj => absurd hj (by simp)⟩
  | succ n ih =>
    intro i o ixs h
    rw [List.range'_succ, List.map_cons] at h
    obtain ⟨ix, o1, hix, h⟩ := andThen_eq_ok.mp h
    obtain ⟨rest, o2, hrest, h⟩ := andThen_eq_ok.mp h
    obtain ⟨rfl, rfl⟩ := Res.ok.inj h
    obtain ⟨body, o3, hbody, hix⟩ := andThen_eq_ok.mp hix
    obtain ⟨-, rfl, rfl⟩ := take_eq_ok.mp hbody
    split at hix
    · exact absurd hix (by simp [bad])
    · rename_i hstatic
      obtain ⟨rfl, rfl⟩ := Res.ok.inj hix
      have hnext : payOff + v1Payload p hdrOff i + ((headAt p hdrOff i).nacct + (headAt p hdrOff i).dlen)
          = payOff + v1Payload p hdrOff (i + 1) := by
        rw [v1Payload_succ, Nat.add_assoc]
        rfl
      rw [hnext] at hrest
      obtain ⟨rfl, rfl, hall⟩ := ih hrest
      have hacc : (field p (payOff + v1Payload p hdrOff i)
          ((headAt p hdrOff i).nacct + (headAt p hdrOff i).dlen)).take (headAt p hdrOff i).nacct
            = field p (payOff + v1Payload p hdrOff i) (headAt p hdrOff i).nacct := by
        rw [field, List.take_take, Nat.min_eq_left (Nat.le_add_right _ _), field]
      have hdata : (field p (payOff + v1Payload p hdrOff i)
          ((headAt p hdrOff i).nacct + (headAt p hdrOff i).dlen)).drop (headAt p hdrOff i).nacct
            = field p (payOff + v1Payload p hdrOff i + (headAt p hdrOff i).nacct) (headAt p hdrOff i).dlen := by
        rw [field, List.drop_take, List.drop_drop, Nat.add_sub_cancel_left, field]
      refine ⟨?_, by rw [Nat.add_assoc, Nat.add_comm 1 n], ?_⟩
      · rw [List.range'_succ, List.map_cons, hacc, hdata]
        rfl
      · intro j hj
        rw [List.range'_succ, List.mem_cons] at hj
        rcases hj with rfl | hj
        · rw [hacc] at hstatic
          exact Bool.not_eq_true _ ▸ hstatic
        · exact hall j hj

theorem payload_range (p : List UInt8) (hdrOff n : Nat) :
    payload ((List.range' 0 n).map (headAt p hdrOff)) = v1Payload p hdrOff n := by
  rw [payload, List.map_map, ← List.range_eq_range', v1Payload]
  rfl

/-- The end of a version 1 transaction, by offsets. -/
theorem v1Tail_eq_ok {start hdrOff ninstr o : Nat} {nsig : UInt8} {keys : List Mint} {p : List UInt8}
    {t : V1Tx} (hoff : hdrOff ≤ p.length) (h : v1Tail start nsig keys ninstr p hdrOff = .ok t o) :
    t.nsig = nsig ∧ t.keys = keys ∧
      t.ixs = (List.range ninstr).map (ixAt p hdrOff (hdrOff + 4 * ninstr)) ∧
      (∀ i ∈ List.range ninstr, ¬(v1Header p hdrOff i).1.toNat ≥ keys.length) ∧
      ¬hdrOff + 4 * ninstr - start + v1Payload p hdrOff ninstr + 64 * nsig.toNat > txV1Max ∧
      (∀ i ∈ List.range ninstr,
        ((ixAt p hdrOff (hdrOff + 4 * ninstr) i).accounts.any (·.toNat ≥ keys.length)) = false) ∧
      o = hdrOff + 4 * ninstr + v1Payload p hdrOff ninstr + 64 * nsig.toNat := by
  obtain ⟨heads, o1, hheads, h⟩ := andThen_eq_ok.mp h
  obtain ⟨rfl, rfl⟩ := times_v1Head (i := 0) ninstr hheads
  rw [Nat.zero_add] at h
  have hin1 := (((stable_take 4).andThen fun h => stable_ret (⟨byteAt h 0, (byteAt h 1).toNat,
    (byteAt h 2).toNat + 256 * (byteAt h 3).toNat⟩ : V1Head)).times ninstr).within hoff hheads
  rw [Nat.zero_add] at hin1
  split at h
  · exact absurd h (by simp [bad])
  · rename_i hprogs
    obtain ⟨off, o2, hpos, h⟩ := andThen_eq_ok.mp h
    obtain ⟨rfl, rfl⟩ := Res.ok.inj hpos
    rw [payload_range] at h
    split at h
    · exact absurd h (by simp [bad])
    · rename_i hsize
      obtain ⟨u, o3, hav, h⟩ := andThen_eq_ok.mp h
      obtain ⟨hpay, rfl⟩ := avail_eq_ok.mp hav
      obtain ⟨ixs, o4, hixs, h⟩ := andThen_eq_ok.mp h
      obtain ⟨rfl, rfl, hacc⟩ := each_v1Body_range (i := 0) ninstr hixs
      rw [Nat.zero_add] at h
      obtain ⟨sigs, o5, hsigs, h⟩ := andThen_eq_ok.mp h
      obtain ⟨rfl, rfl⟩ := Res.ok.inj h
      obtain ⟨rfl, -, -, -⟩ := times_signature nsig.toNat hpay hsigs
      rw [List.range_eq_range']
      refine ⟨rfl, rfl, rfl, fun i hi hge => hprogs ?_, hsize, hacc, rfl⟩
      exact List.any_eq_true.mpr ⟨headAt p hdrOff i, List.mem_map_of_mem hi, decide_eq_true hge⟩

/-- The layout the bytes describe, unchecked. -/
def layoutAt (p : List UInt8) (start : Nat) : FrameV1 :=
  let nsig := byteAt p (start + 1)
  let ninstr := (byteAt p (start + 40)).toNat
  let naddr := (byteAt p (start + 41)).toNat
  let hdrOff := start + txV1HdrSize + 32 * naddr + 4 * pop32 (leNat (field p (start + 4) 4))
  let payOff := hdrOff + 4 * ninstr
  ⟨nsig, ninstr, naddr, start + txV1HdrSize, hdrOff, payOff,
    payOff + v1Payload p hdrOff ninstr + 64 * nsig.toNat⟩

/-- **A framed version 1 transaction has its layout.** -/
theorem frameV1_layout {p : List UInt8} {start o : Nat} {t : V1Tx} (hoff : start ≤ p.length)
    (h : frameV1 p start = .ok t o) :
    ∃ l, frameV1Layout p start = some l ∧ l.nsig = t.nsig ∧ l.txEnd = o ∧
      l.keysOff = start + txV1HdrSize ∧ l.keysOff ≤ o ∧ 0 < l.naddr ∧
      t.keys = staticKeys p l.keysOff l.naddr ∧
      t.ixs = (List.range l.ninstr).map (frameV1Ix p l) := by
  have hend := stable_frameV1.within hoff h
  obtain ⟨b, o1, hb, h⟩ := andThen_eq_ok.mp (show frameV1From start p start = .ok t o from h)
  obtain ⟨rfl, hlt, rfl⟩ := byte_byteAt hb
  split at h
  · exact absurd h (by simp [bad])
  · rename_i hprefix
    obtain ⟨hd, o2, hhd, h⟩ := andThen_eq_ok.mp h
    obtain ⟨hhdr, rfl, rfl⟩ := take_eq_ok.mp hhd
    -- the fields of the header, at their offsets in the buffer
    have hnsig : byteAt (field p (start + 1) (txV1HdrSize - 1)) 0 = byteAt p (start + 1) :=
      byteAt_field (by decide)
    have hros : byteAt (field p (start + 1) (txV1HdrSize - 1)) 1 = byteAt p (start + 2) :=
      byteAt_field (by decide)
    have hrou : byteAt (field p (start + 1) (txV1HdrSize - 1)) 2 = byteAt p (start + 3) :=
      byteAt_field (by decide)
    have hmask : field (field p (start + 1) (txV1HdrSize - 1)) 3 4 = field p (start + 4) 4 :=
      field_field (by decide)
    have hix : byteAt (field p (start + 1) (txV1HdrSize - 1)) 39 = byteAt p (start + 40) :=
      byteAt_field (by decide)
    have haddr : byteAt (field p (start + 1) (txV1HdrSize - 1)) 40 = byteAt p (start + 41) :=
      byteAt_field (by decide)
    have hkeysOff : start + 1 + (txV1HdrSize - 1) = start + txV1HdrSize := rfl
    simp only [hnsig, hros, hrou, hmask, hix, haddr, hkeysOff] at h
    rw [hkeysOff] at hhdr
    split at h
    · exact absurd h (by simp [bad])
    · rename_i hconfig
      split at h
      · exact absurd h (by simp [bad])
      · rename_i hninstr
        split at h
        · exact absurd h (by simp [bad])
        · rename_i hheader
          obtain ⟨keys, o3, hkeys, h⟩ := andThen_eq_ok.mp h
          have hin3 := (stable_key.times _).within hhdr hkeys
          obtain ⟨rfl, rfl⟩ := times_key _ hkeys
          split at h
          · exact absurd h (by simp [bad])
          · rename_i hnodup
            obtain ⟨cfg, o4, hcfg, h⟩ := andThen_eq_ok.mp h
            obtain ⟨hin4, -, rfl⟩ := take_eq_ok.mp hcfg
            obtain ⟨hn, hk, hixs, hprogs, hsize, hacc, hlast⟩ := v1Tail_eq_ok hin4 h
            rw [length_staticKeys] at hprogs hacc
            rw [Bool.not_eq_false] at hheader
            have hsigners := of_decide_eq_true hheader
            refine ⟨layoutAt p start, ?_, hn.symm, hlast.symm, rfl, ?_, ?_, hk, hixs⟩
            · rw [staticKeys] at hnodup
              rw [frameV1Layout]
              simp only
              rw [if_neg, if_neg hconfig, if_neg hninstr, if_neg, if_neg (Nat.not_lt.mpr hin3),
                if_neg hnodup, if_neg, if_neg, if_neg hsize, if_neg, if_neg, if_neg]
              · rfl
              · omega
              · intro hbad
                obtain ⟨a, ha, hge⟩ := List.any_eq_true.mp hbad
                obtain ⟨i, hi, ha⟩ := List.mem_flatMap.mp ha
                exact List.any_eq_false.mp (hacc i hi) a ha hge
              · omega
              · intro hbad
                obtain ⟨i, hi, hge⟩ := List.any_eq_true.mp hbad
                exact hprogs i hi (of_decide_eq_true hge)
              · omega
              · rw [hheader]
                decide
              · rintro (hc | hc | hc)
                · omega
                · exact hprefix hc
                · omega
            · show start + txV1HdrSize ≤ o
              omega
            · show 0 < (byteAt p (start + 41)).toNat
              omega

section Version1

variable (sha256 : List UInt8 → Vector UInt8 32)
variable {p : List UInt8} {start o : Nat} {t : V1Tx}

/-- The walk over a framed version 1 transaction is a fold over its
instructions. -/
theorem swapixFromV1At_framed (hoff : start ≤ p.length) (h : frameV1 p start = .ok t o)
    {loaded : Option (List Mint)} (hkeys : loaded.getD t.keys = t.keys) :
    swapixFromV1At sha256 p start loaded = swapFirst sha256 t.keys t.ixs := by
  obtain ⟨l, hl, -, -, -, -, -, hk, hixs⟩ := frameV1_layout hoff h
  rw [swapixFromV1At, hl, Option.bind_some, ← hk, ← hixs, hkeys]

/-- **The path over the buffer, on a framed version 1 transaction.** -/
theorem swapixFromTx_v1 (hlen : p.length < 2 ^ 16) (hstart : p[start]? = some txV1Prefix)
    (h : frameV1 p start = .ok t o) :
    swapixFromTx sha256 p start
      = (swapFirst sha256 t.keys t.ixs).map fun s => withSig s (field p (o - 64 * t.nsig.toNat) 64) := by
  have hlt : start < p.length := (List.getElem?_eq_some_iff.mp hstart).1
  have hbyte : byteAt p start = txV1Prefix := byteAt_of_getElem? hstart
  obtain ⟨hpos, hfirst, -, hin, -⟩ := frameV1_sig0 (Nat.le_of_lt hlt) h
  obtain ⟨l, hl, hn, hend, -⟩ := frameV1_layout (Nat.le_of_lt hlt) h
  have hsig : copySig p l.nsig (l.txEnd % 2 ^ 16) = some (field p (o - 64 * t.nsig.toNat) 64) := by
    rw [hn, hend, Nat.mod_eq_of_lt (by omega), copySig, if_neg (by omega), if_neg (by omega),
      if_neg (by omega)]
  unfold swapixFromTx
  simp only
  rw [if_pos ⟨hlt, hbyte⟩, swapixFromV1At_framed sha256 (Nat.le_of_lt hlt) h rfl, hl]
  simp only [Option.bind_some, hsig]
  cases swapFirst sha256 t.keys t.ixs <;> rfl

/-- **The trigger path, on a framed version 1 transaction.** -/
theorem swapixFromFrame_v1 (hlen : p.length < 2 ^ 16) (hstart : p[start]? = some txV1Prefix)
    (h : frameV1 p start = .ok t o) :
    swapixFromFrame sha256 p start (t.hit start o)
      = (swapFirst sha256 t.keys t.ixs).map fun s => withSig s (field p (o - 64 * t.nsig.toNat) 64) := by
  have hlt : start < p.length := (List.getElem?_eq_some_iff.mp hstart).1
  obtain ⟨hpos, hfirst, -, hin, -⟩ := frameV1_sig0 (Nat.le_of_lt hlt) h
  obtain ⟨l, hl, -, hend, hko, hle, hsome, hk, -⟩ := frameV1_layout (Nat.le_of_lt hlt) h
  have hhit : (t.hit start o).versioned = frameVerV1 := rfl
  have hkeys : t.keys ≠ [] := by
    intro hnil
    have hcount := length_staticKeys p l.keysOff l.naddr
    rw [← hk, hnil, List.length_nil] at hcount
    omega
  -- the slice, framed by itself
  have hfits : start + (o - start) ≤ p.length := by omega
  have hslice : frameV1 (field p start (o - start)) 0 = .ok t (o - start) := by
    have := shifts_frameV1.shift (Nat.le_refl start) hfits h (by omega)
    rwa [Nat.sub_self] at this
  have hq0 : byteAt (field p start (o - start)) 0 = txV1Prefix := byteAt_slice hstart (by omega)
  have hloaded : swapixFromLoaded sha256 (field p start (o - start)) (txV1HdrSize % 2 ^ 16)
      t.keys.length t.keys = swapFirst sha256 t.keys t.ixs := by
    rw [swapixFromLoaded, if_neg hkeys, if_pos ⟨by rw [length_field hfits]; omega, hq0⟩]
    have hkeysLoaded : (some t.keys).getD t.keys = t.keys := rfl
    exact swapixFromV1At_framed sha256 (Nat.zero_le _) hslice hkeysLoaded
  have hsig : copySig0 p start (t.hit start o) = some (field p (o - 64 * t.nsig.toNat) 64) := by
    unfold copySig0
    rw [if_pos hhit, if_neg, if_neg]
    · rfl
    · show ¬o - 64 * t.nsig.toNat + 64 > o
      omega
    · show ¬(t.nsig < 1 ∨ o < 64 * t.nsig.toNat)
      rintro (hc | hc)
      · have hzero : t.nsig.toNat < 1 := UInt8.lt_iff_toNat_lt.mp hc
        omega
      · omega
  have hoffset : keysOffset p start (t.hit start o) = some (start + txV1HdrSize) := by
    unfold keysOffset
    rw [if_pos hhit, if_neg]
    show ¬start + txV1HdrSize > o
    omega
  have hstatic : staticKeys p (start + txV1HdrSize) t.keys.length = t.keys := by
    have hcount := length_staticKeys p l.keysOff l.naddr
    rw [← hk] at hcount
    rw [hcount, ← hko, ← hk]
  unfold swapixFromFrame decodeLoaded
  rw [hoffset, Option.bind_some, Nat.mod_eq_of_lt (by show o - start < 2 ^ 16; omega),
    Nat.add_sub_cancel_left]
  show Option.map Prod.fst ((swapixFromLoaded sha256 (field p start (o - start)) (txV1HdrSize % 2 ^ 16)
    t.keys.length (staticKeys p (start + txV1HdrSize) t.keys.length)).bind _) = _
  rw [hstatic, hloaded, hsig]
  exact decoded_withSig sha256 _ _ _

end Version1

/-! ## §6. The two paths. -/

section Agreement

variable (sha256 : List UInt8 → Vector UInt8 32)

/-- **The two paths from a transaction to its swap agree**: on a legacy or
version 1 transaction that frames, both fail or both find the same swap, its
signature included. -/
theorem swapixFromTx_eq_trigger {p : List UInt8} {start o : Nat} {fh : FrameHit}
    (hlen : p.length ≤ 65535) (hframe : Framing.frameTryAny p start = .ok fh o)
    (hver : fh.versioned ≠ frameVerV0) :
    swapixFromTx sha256 p start = swapixFromFrame sha256 p start fh := by
  have hlt : p.length < 2 ^ 16 := by omega
  have hspan := frameTry_span hframe
  have hoff : start ≤ p.length := Nat.le_of_lt hspan.1
  unfold Framing.frameTryAny frameTry at hframe
  split at hframe
  · rename_i hstart
    obtain ⟨t, ht, rfl, -⟩ := frameParseV1_eq_ok.mp hframe
    rw [swapixFromTx_v1 sha256 hlt hstart ht, swapixFromFrame_v1 sha256 hlt hstart ht]
  · obtain ⟨f, hf, rfl, -⟩ := frameParse_eq_ok.mp hframe
    have hlegacy : f.versioned = false := by
      by_contra hc
      rw [Bool.not_eq_false] at hc
      exact hver (by show (if f.versioned then frameVerV0 else frameVerLegacy) = frameVerV0; rw [hc]; rfl)
    obtain ⟨nsig, keysOff, ninstr, ixOff, hparts⟩ := frameTx_legacy hoff hf hlegacy
    rw [swapixFromTx_legacy sha256 hlt hparts, swapixFromFrame_legacy sha256 hlt hlegacy hparts]

/-- A legacy transaction that sells into a pump pool. -/
def pumpSellTx : List UInt8 :=
  [1] ++ List.replicate 64 7 ++ [1, 0, 1, 2] ++ List.replicate 32 5 ++ progPumpBytes ++
    List.replicate 32 9 ++ [1, 1, 1, 0, 24] ++ pumpSellDisc ++ [100, 0, 0, 0, 0, 0, 0, 0] ++
    [1, 0, 0, 0, 0, 0, 0, 0]

theorem swapixFromTx_eq_trigger_demo :
    let sha256 : List UInt8 → Vector UInt8 32 := fun _ => Vector.replicate 32 0
    let fh : FrameHit := ⟨1, 0, true, 2, 1, 0, 194⟩
    swapixFromTx sha256 pumpSellTx 0 = swapixFromFrame sha256 pumpSellTx 0 fh ∧
      (swapixFromTx sha256 pumpSellTx 0).map SwapIx.amountIn = some 100 := by
  intro sha256 fh
  exact ⟨swapixFromTx_eq_trigger sha256 (o := 194) (by decide +kernel) (by decide +kernel) (by decide),
    by decide +kernel⟩

end Agreement

end ShredArb.Trigger
