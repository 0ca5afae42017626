/-
  ShredArb.Auth.Agreement — the two readers of the AUTH ring select alike.

  `predecessor` is the rule in its own terms, over publications: behind the
  trigger's own entry when it is in the ring, else the newest entry of an earlier
  slot, and never past one that is not usable.  `choose_pred` over `dump_ring` and
  `authpub_pred` over the raw map both compute it.

  Main results:
    * `choosePred_dumpRing`, `selectEnt_eq` — either reader is `predecessor`,
    * `authpubPred_agrees` — the same publication, decoded as it was published.
-/
import ShredArb.Auth.Ring
import ShredArb.Auth.Reader

namespace ShredArb.Auth

open ShredArb.Bytes ShredArb.Mem ShredArb.Parse

/-! ## §1. The rule. -/

/-- Neither a gap nor an incomplete transaction. -/
def Published.usable (p : Published) : Bool := !hasFlag p.args.flagWord (incomplete ||| gapped)

/-- The predecessor of a trigger among the publications, newest first. -/
def predecessor (ring : List Published) (trigSlot : UInt64) (sig : Option (List UInt8)) :
    Option Published :=
  match ring.findIdx? fun p => sig.any fun g => p.args.sig64 == g with
  | some i => ring[i + 1]?.filter Published.usable
  | none => (ring.find? fun p => p.args.slot ≤ trigSlot).filter fun p =>
      p.args.slot ≠ trigSlot && p.usable

theorem mem_of_predecessor {ring : List Published} {trigSlot : UInt64} {sig : Option (List UInt8)}
    {p : Published} (h : p ∈ predecessor ring trigSlot sig) : p ∈ ring := by
  unfold predecessor at h
  split at h
  · obtain ⟨hget, -⟩ := Option.mem_filter_iff.mp h
    exact List.mem_of_getElem? hget
  · obtain ⟨hfind, -⟩ := Option.mem_filter_iff.mp h
    exact List.mem_of_find?_eq_some hfind

/-- The header a publication has for the C reader. -/
def Published.header (p : Published) : Meta where
  generation := UInt64.ofNat p.ver
  slot := p.args.slot
  stateVersion := UInt64.ofNat p.ver
  hash := authpubHash p.args.blob
  maxAccountWriteVersion := p.args.maxAccountWriteVersion.getD 0
  txnIndex := p.args.txnIndex.getD txnIndexUnknown
  flags := p.args.flagWord
  sig := p.args.sig64
  proto := p.args.protoByte
  coherent := 1
  ok := 1

/-- A publication as the C reader hands it out. -/
def Published.decoded (p : Published) : Meta × List UInt8 := (p.header, p.args.blob)

/-- A publication as `dump_ring` lists it. -/
def Published.dict (p : Published) : RingEnt where
  generation := p.ver
  slot := p.args.slot.toNat
  txnIndex := (p.args.txnIndex.getD txnIndexUnknown).toNat
  flags := p.args.flagWord.toNat
  stateVersion := p.ver
  sig := p.args.sig64
  proto := p.args.protoByte.toNat
  coherent := 1
  blobLen := p.args.blob.length
  maxAccountWriteVersion :=
    if hasFlag p.args.flagWord hasAccountWriteVersion then
      some (p.args.maxAccountWriteVersion.getD 0).toNat
    else none

/-! ## §2. Flags. -/

theorem hasFlag_or (f g b : UInt32) : hasFlag (f ||| g) b = (hasFlag f b || hasFlag g b) := by
  have hdist : (f ||| g) &&& b = (f &&& b) ||| (g &&& b) := by
    apply UInt32.toNat_inj.mp
    rw [UInt32.toNat_and, UInt32.toNat_or, UInt32.toNat_or, UInt32.toNat_and, UInt32.toNat_and,
      Nat.and_or_distrib_right]
  unfold hasFlag
  rw [hdist, Bool.eq_iff_iff]
  simp only [bne_iff_ne, ne_eq, Bool.or_eq_true, UInt32.or_eq_zero_iff]
  tauto

theorem hasFlag_toNat (f b : UInt32) : f.toNat &&& b.toNat ≠ 0 ↔ hasFlag f b = true := by
  rw [hasFlag, bne_iff_ne, ne_eq, ne_eq, ← UInt32.toNat_and, ← UInt32.toNat_inj]
  rfl

theorem flagWord_coherent (a : PublishArgs) : hasFlag a.flagWord coherent = true := by
  have hself : hasFlag coherent coherent = true := by decide
  unfold PublishArgs.flagWord
  simp only
  split <;> split <;> simp [hasFlag_or, hself]

theorem flagWord_txnIndex {a : PublishArgs} (h : a.txnIndex.isSome) :
    hasFlag a.flagWord hasTxnIndex = true := by
  have hself : hasFlag hasTxnIndex hasTxnIndex = true := by decide
  unfold PublishArgs.flagWord
  simp only [h, if_true]
  split <;> simp [hasFlag_or, hself]

theorem flagWord_writeVersion {a : PublishArgs} (h : a.maxAccountWriteVersion.isSome) :
    hasFlag a.flagWord hasAccountWriteVersion = true := by
  have hself : hasFlag hasAccountWriteVersion hasAccountWriteVersion = true := by decide
  unfold PublishArgs.flagWord
  simp only [h, if_true]
  simp [hasFlag_or, hself]

/-- The flag is redundant: without it the packed value is the default. -/
theorem txn_of_flag (a : PublishArgs) :
    (if hasFlag a.flagWord hasTxnIndex then a.txn else txnIndexUnknown)
      = a.txnIndex.getD txnIndexUnknown := by
  split
  · rfl
  · rename_i h
    have hnone : a.txnIndex = none := by
      by_contra hne
      exact h (flagWord_txnIndex (Option.isSome_iff_ne_none.mpr hne))
    rw [hnone, Option.getD_none]

theorem writeVer_of_flag (a : PublishArgs) :
    (if hasFlag a.flagWord hasAccountWriteVersion then a.writeVer else 0)
      = a.maxAccountWriteVersion.getD 0 := by
  split
  · rfl
  · rename_i h
    have hnone : a.maxAccountWriteVersion = none := by
      by_contra hne
      exact h (flagWord_writeVersion (Option.isSome_iff_ne_none.mpr hne))
    rw [hnone, Option.getD_none]

/-! ## §3. One entry. -/

theorem reads_uint {k v : Nat} (h : v < 256 ^ k) : Reads (uint k) (leBytes k v) v := by
  have hread := (reads_exactly (length_leBytes k v)).map (g := leNat)
  rwa [leNat_leBytes, Nat.mod_eq_of_lt h] at hread

theorem reads_uint_byte (b : UInt8) : Reads (uint 1) [b] b.toNat := by
  have hread := (reads_exactly (show [b].length = 1 from rfl)).map (g := leNat)
  rwa [leNat, leNat, Nat.mul_zero, Nat.add_zero] at hread

/-- `_ENT_HDR.unpack` of what `_ENT_HDR.pack` wrote. -/
theorem reads_entHdr {p : Published} (h : p.Fits) :
    Reads unpackEntHdr (entHdrParts p.ver p.args).flatten p.dict := by
  have hlen : p.args.blob.length < 256 ^ 2 := by
    have := h.blob_le
    unfold blobCap at this
    omega
  simp only [entHdrParts, List.flatten_cons, List.flatten_nil]
  unfold unpackEntHdr
  refine (reads_uint h.ver_lt).andThen ?_
  refine (reads_uint p.args.slot.toNat_lt).andThen ?_
  refine (reads_uint p.args.txn.toNat_lt).andThen ?_
  refine (reads_uint p.args.flagWord.toNat_lt).andThen ?_
  refine (reads_uint h.ver_lt).andThen ?_
  refine (reads_exactly (length_sig64 p.args)).andThen ?_
  refine (reads_uint_byte p.args.protoByte).andThen ?_
  refine (reads_uint_byte 1).andThen ?_
  refine (reads_uint hlen).andThen ?_
  refine (reads_uint p.args.writeVer.toNat_lt).andThen ?_
  refine (reads_exactly (length_zeros 20)).andThen ?_
  -- the flag tests are the C reader's, on the same word
  have htxn : (if p.args.flagWord.toNat &&& hasTxnIndex.toNat ≠ 0 then p.args.txn.toNat
      else txnIndexUnknown.toNat) = (p.args.txnIndex.getD txnIndexUnknown).toNat := by
    rw [← txn_of_flag]
    simp only [hasFlag_toNat]
    split <;> rfl
  simp only [htxn]
  simp only [hasFlag_toNat]
  exact reads_done p.dict

/-- The entry at an address is a publication's. -/
structure EntryAt (m : Memory) (e : Nat) (p : Published) : Prop where
  bytes : read m e entSize = p.bytes
  fits : p.Fits

namespace EntryAt

variable {m : Memory} {e : Nat} {p : Published}

/-- A field of the entry is the part that stands at its offset. -/
theorem part (h : EntryAt m e p) {k o n : Nat} {x : List UInt8} (hk : p.parts[k]? = some x)
    (ho : o = ((p.parts.take k).map List.length).sum) (hn : n = x.length)
    (hle : o + n ≤ entSize) : read m (e + o) n = x := by
  rw [← field_read m hle, h.bytes, Published.bytes, field_flatten hk ho hn]

theorem word (h : EntryAt m e p) {k o n v : Nat} (hk : p.parts[k]? = some (leBytes n v))
    (ho : o = ((p.parts.take k).map List.length).sum) (hle : o + n ≤ entSize)
    (hv : v < 256 ^ n) : leNat (read m (e + o) n) = v := by
  rw [h.part hk ho (length_leBytes n v).symm hle, leNat_leBytes, Nat.mod_eq_of_lt hv]

theorem byte (h : EntryAt m e p) {k o : Nat} {b : UInt8} (hk : p.parts[k]? = some [b])
    (ho : o = ((p.parts.take k).map List.length).sum) (hle : o + 1 ≤ entSize) : m (e + o) = b := by
  have hread := h.part hk ho rfl hle
  have hone : read m (e + o) 1 = [m (e + o)] := rfl
  exact List.head_eq_of_cons_eq (hone.symm.trans hread)

theorem slot (h : EntryAt m e p) : u64 m (e + 8) = p.args.slot := by
  have hw := h.word (k := 1) (o := 8) rfl (by simp [Published.parts, entHdrParts, length_leBytes])
    (by decide) p.args.slot.toNat_lt
  rw [u64, hw, UInt64.ofNat_toNat]

theorem flags (h : EntryAt m e p) : u32 m (e + 20) = p.args.flagWord := by
  have hw := h.word (k := 3) (o := 20) rfl (by simp [Published.parts, entHdrParts, length_leBytes])
    (by decide) p.args.flagWord.toNat_lt
  rw [u32, hw, UInt32.ofNat_toNat]

theorem sig (h : EntryAt m e p) : read m (e + 32) 64 = p.args.sig64 :=
  h.part (k := 5) rfl (by simp [Published.parts, entHdrParts, length_leBytes])
    (length_sig64 p.args).symm (by decide)

theorem coherentByte (h : EntryAt m e p) : m (e + 97) = 1 :=
  h.byte (k := 7) (o := 97) rfl
    (by simp [Published.parts, entHdrParts, length_leBytes, length_sig64]) (by decide)

/-- The two bytes of `blob_len`. -/
theorem blobLen (h : EntryAt m e p) :
    (m (e + 98)).toUInt16 ||| ((m (e + 99)).toUInt16 <<< 8) = UInt16.ofNat p.args.blob.length := by
  have hlen : p.args.blob.length ≤ 2048 := h.fits.blob_le
  have hread := h.part (k := 8) (o := 98) (n := 2) rfl
    (by simp [Published.parts, entHdrParts, length_leBytes, length_sig64]) (length_leBytes 2 _).symm
    (by decide)
  have htwo : read m (e + 98) 2 = [m (e + 98), m (e + 99)] := rfl
  rw [htwo, leBytes, leBytes, leBytes] at hread
  obtain ⟨hlo, hhi⟩ : m (e + 98) = _ ∧ m (e + 99) = _ := by simpa using hread
  rw [hlo, hhi]
  apply UInt16.toNat_inj.mp
  have hhigh : p.args.blob.length / 256 < 256 := by omega
  have hor := Nat.shiftLeft_add_eq_or_of_lt (i := 8) (b := p.args.blob.length % 256) (by omega)
    (p.args.blob.length / 256)
  rw [UInt16.toNat_or, UInt16.toNat_shiftLeft, UInt8.toNat_toUInt16, UInt8.toNat_toUInt16,
    UInt8.toNat_ofNat', UInt8.toNat_ofNat', UInt16.toNat_ofNat', Nat.mod_eq_of_lt hhigh,
    Nat.or_comm]
  have hshift : (p.args.blob.length / 256) <<< 8 < 2 ^ 16 := by
    rw [Nat.shiftLeft_eq]
    omega
  show (p.args.blob.length / 256) <<< 8 % 2 ^ 16 ||| p.args.blob.length % 2 ^ 8 = _
  rw [Nat.mod_eq_of_lt hshift, ← hor, Nat.shiftLeft_eq]
  omega

/-- `copy_ent` decodes every field to what was published. -/
theorem copyEnt_eq (h : EntryAt m e p) : copyEnt m e = some p.decoded := by
  have hlen : p.args.blob.length ≤ 2048 := h.fits.blob_le
  have hlenNat : (UInt16.ofNat p.args.blob.length).toNat = p.args.blob.length := by
    rw [UInt16.toNat_ofNat', Nat.mod_eq_of_lt (by omega)]
  have hfits : ¬ (2048 : UInt16) < UInt16.ofNat p.args.blob.length := by
    rw [UInt16.lt_iff_toNat_lt, hlenNat]
    exact Nat.not_lt.mpr hlen
  have hblob : read m (e + 128) p.args.blob.length = p.args.blob :=
    h.part (k := 11) rfl (by simp [Published.parts, entHdrParts, length_leBytes, length_sig64]) rfl
      (by unfold entSize; omega)
  have hgen : u64 m (e + 0) = UInt64.ofNat p.ver := by
    rw [u64, h.word (k := 0) (o := 0) rfl rfl (by decide) h.fits.ver_lt]
  have hver : u64 m (e + 24) = UInt64.ofNat p.ver := by
    rw [u64, h.word (k := 4) (o := 24) rfl
      (by simp [Published.parts, entHdrParts, length_leBytes]) (by decide) h.fits.ver_lt]
  have htxn : u32 m (e + 16) = p.args.txn := by
    rw [u32, h.word (k := 2) (o := 16) rfl
      (by simp [Published.parts, entHdrParts, length_leBytes]) (by decide) p.args.txn.toNat_lt,
      UInt32.ofNat_toNat]
  have hwrite : u64 m (e + 100) = p.args.writeVer := by
    rw [u64, h.word (k := 9) (o := 100) rfl
      (by simp [Published.parts, entHdrParts, length_leBytes, length_sig64]) (by decide)
      p.args.writeVer.toNat_lt, UInt64.ofNat_toNat]
  have hproto : m (e + 96) = p.args.protoByte :=
    h.byte (k := 6) (o := 96) rfl
      (by simp [Published.parts, entHdrParts, length_leBytes, length_sig64]) (by decide)
  unfold copyEnt
  simp only [h.blobLen, if_neg hfits, hlenNat, hblob, hgen, h.slot, h.flags, htxn, hver, hwrite,
    h.sig, hproto, h.coherentByte, txn_of_flag, writeVer_of_flag]
  rfl

theorem usable_eq (h : EntryAt m e p) : usable m e = p.usable := by
  unfold Auth.usable Published.usable
  simp only [h.flags, h.coherentByte, flagWord_coherent]
  cases hasFlag p.args.flagWord (incomplete ||| gapped) <;> rfl

theorem takeEnt_eq (h : EntryAt m e p) :
    takeEnt m e = ((some p).filter Published.usable).map Published.decoded := by
  rw [takeEnt, h.usable_eq, h.copyEnt_eq, Option.filter_some]
  split <;> rfl

/-- `_ENT_HDR.unpack` of the entry, as `dump_ring` lists it. -/
theorem unpackEntHdr_eq (h : EntryAt m e p) :
    (unpackEntHdr (read m e 128)).map Prod.fst = some p.dict := by
  have hreads := reads_entHdr h.fits
  have hhdr : read m e 128 = (entHdrParts p.ver p.args).flatten := by
    have hcut : field (read m e entSize) 0 128 = read m (e + 0) 128 := field_read m (by decide)
    rw [Nat.add_zero, h.bytes, Published.bytes, Published.parts, List.flatten_append, field,
      List.drop_zero, List.take_left' (length_entHdr _ _)] at hcut
    exact hcut.symm
  have hall := hreads []
  rw [List.append_nil] at hall
  rw [hhdr, hall, Option.map_some]

end EntryAt

/-! ## §4. The ring. -/

theorem findIdx?_forall₂ {α β : Type} {R : α → β → Prop} {f : α → Bool} {g : β → Bool}
    (h : ∀ x y, R x y → f x = g y) {xs : List α} {ys : List β} (hR : List.Forall₂ R xs ys) :
    xs.findIdx? f = ys.findIdx? g := by
  induction hR with
  | nil => rfl
  | cons hxy _ ih => rw [List.findIdx?_cons, List.findIdx?_cons, h _ _ hxy, ih]

/-- The C loop over slots. -/
theorem scanSlots_eq {m : Memory} {trigSlot : UInt64} {addrs : List Nat} {ring : List Published}
    (h : List.Forall₂ (EntryAt m) addrs ring) :
    scanSlots m trigSlot addrs
      = ((ring.find? fun p => p.args.slot ≤ trigSlot).filter fun p =>
          p.args.slot ≠ trigSlot && p.usable).map Published.decoded := by
  induction h with
  | nil => rfl
  | @cons e p addrs ring hep _ ih =>
    rw [scanSlots, hep.slot, List.find?_cons]
    by_cases heq : p.args.slot = trigSlot
    · simp [heq]
    by_cases hgt : p.args.slot > trigSlot
    · have hle : ¬ p.args.slot ≤ trigSlot := UInt64.not_le.mpr hgt
      simp only [if_neg heq, if_pos hgt, ih, hle, decide_false]
    · have hle : p.args.slot ≤ trigSlot := UInt64.not_lt.mp hgt
      simp only [if_neg heq, if_neg hgt, hle, decide_true, hep.takeEnt_eq, Option.filter_some]
      simp [heq]

theorem takeEnt_getElem? {m : Memory} {addrs : List Nat} {ring : List Published}
    (h : List.Forall₂ (EntryAt m) addrs ring) (i : Nat) :
    addrs[i]?.bind (takeEnt m) = (ring[i]?.filter Published.usable).map Published.decoded := by
  have hlen := h.length_eq
  by_cases hi : i < ring.length
  · have hep := (List.forall₂_iff_get.mp h).2 i (by omega) hi
    rw [List.getElem?_eq_getElem (by omega), List.getElem?_eq_getElem hi, Option.bind_some]
    exact hep.takeEnt_eq
  · rw [List.getElem?_eq_none (by omega), List.getElem?_eq_none (by omega)]
    rfl

/-- The addresses the C loops visit hold the last 16 publications, newest first. -/
theorem ringAddrs_entries {m : Memory} {idx : Nat} {ring : List Published} {head n : UInt32}
    (h : RingAt m idx ring) (hhead : head.toNat = ring.length)
    (hn : n = if head < 16 then head else 16) :
    List.Forall₂ (EntryAt m) (ringAddrs (poolOff idx) head n) (ring.take ringCap) := by
  have hnNat : n.toNat = min ring.length ringCap := by
    have hlt : head < 16 ↔ ring.length < 16 := by
      rw [UInt32.lt_iff_toNat_lt, hhead]
      rfl
    rw [hn, ringCap]
    split
    · rename_i hsmall
      have := hlt.mp hsmall
      omega
    · rename_i hbig
      have := mt hlt.mpr hbig
      show 16 = min ring.length 16
      omega
  rw [List.forall₂_iff_get]
  refine ⟨?_, fun i hi hi' => ?_⟩
  · rw [ringAddrs, List.length_map, List.length_range, List.length_take, hnNat, Nat.min_comm]
  · rw [ringAddrs, List.length_map, List.length_range, hnNat] at hi
    have hlen : i < ring.length := by omega
    have hring : ring[i]? = some ring[i] := List.getElem?_eq_getElem hlen
    -- `head - 1u - i` does not wrap: the entry is one that was written
    have hsmall : i < 16 := by
      unfold ringCap at hi
      omega
    have hiNat : (UInt32.ofNat i).toNat = i := by
      rw [UInt32.toNat_ofNat', Nat.mod_eq_of_lt (by omega)]
    have hone : (head - 1).toNat = ring.length - 1 := by
      rw [UInt32.toNat_sub_of_le _ _ (by rw [UInt32.le_iff_toNat_le, hhead]; exact Nat.one_le_of_lt hlen),
        hhead]
      rfl
    have hidx : (head - 1 - UInt32.ofNat i).toNat = ring.length - 1 - i := by
      rw [UInt32.toNat_sub_of_le _ _ (by rw [UInt32.le_iff_toNat_le, hone, hiNat]; omega), hone, hiNat]
    have haddr : entAt (poolOff idx) (head - 1 - UInt32.ofNat i)
        = entOff idx ((ring.length - 1 - i) % ringCap) := by
      rw [entAt, UInt32.toNat_mod, hidx]
      rfl
    simp only [ringAddrs, List.get_eq_getElem, List.getElem_map, List.getElem_range,
      List.getElem_take, haddr]
    exact ⟨h.ents i _ (by omega) hring, h.fits _ (List.getElem_mem hlen)⟩

/-- What one pass of the C reader selects. -/
theorem selectEnt_eq {m : Memory} {idx : Nat} {ring : List Published} (h : RingAt m idx ring)
    (trigSlot : UInt64) (sig : Option (List UInt8)) :
    selectEnt m (poolOff idx) trigSlot sig
      = (predecessor (ring.take ringCap) trigSlot sig).map Published.decoded := by
  have hhead : (u32 m (poolOff idx + 8)).toNat = ring.length := by
    have hlt : headOf m idx < 2 ^ 32 := by
      have hbound := leNat_lt (read m (poolOff idx + 8) 4)
      rwa [length_read] at hbound
    rw [← h.head_eq, u32, UInt32.toNat_ofNat']
    exact Nat.mod_eq_of_lt hlt
  have hents := ringAddrs_entries h hhead rfl
  have hfind := findIdx?_forall₂ (f := fun e => sig.any fun g => read m (e + 32) 64 == g)
    (g := fun p => sig.any fun g => p.args.sig64 == g) (fun e p hep => by rw [hep.sig]) hents
  unfold selectEnt predecessor
  simp only [hfind]
  cases (ring.take ringCap).findIdx? fun p => sig.any fun g => p.args.sig64 == g with
  | none => exact scanSlots_eq hents
  | some i => exact takeEnt_getElem? hents (i + 1)

/-! ## §5. The publisher's own reader. -/

theorem RingEnt_usable_dict (p : Published) : p.dict.usable = p.usable := by
  have hcoh : p.args.flagWord.toNat &&& coherent.toNat ≠ 0 :=
    (hasFlag_toNat _ _).mpr (flagWord_coherent p.args)
  have hbad := hasFlag_toNat p.args.flagWord (incomplete ||| gapped)
  unfold RingEnt.usable Published.usable Published.dict
  rw [Bool.eq_iff_iff]
  simp only [Bool.and_eq_true, bne_iff_ne, beq_iff_eq, Bool.not_eq_true', ne_eq, hcoh,
    not_false_eq_true]
  rw [← Bool.not_eq_true, ← hbad, ne_eq, not_not]
  simp

theorem chooseBehind_map (g : List UInt8) (ring : List Published) :
    chooseBehind g (ring.map Published.dict)
      = (ring.findIdx? fun p => p.args.sig64 == g).map fun i =>
          (ring[i + 1]?.filter Published.usable).map Published.dict := by
  induction ring with
  | nil => rfl
  | cons p ring ih =>
    rw [List.map_cons, chooseBehind, List.findIdx?_cons]
    by_cases hsig : p.args.sig64 = g
    · have hdict : p.dict.sig = g := hsig
      rw [if_pos hdict]
      cases ring with
      | nil => simp [hsig]
      | cons q ring => simp [hsig, Option.filter, RingEnt_usable_dict, apply_ite]
    · have hdict : p.dict.sig ≠ g := hsig
      rw [if_neg hdict, ih]
      simp [hsig, Option.map_map, Function.comp_def]

theorem chooseBelow_map (trigSlot : UInt64) (ring : List Published) :
    chooseBelow trigSlot.toNat (ring.map Published.dict)
      = ((ring.find? fun p => p.args.slot ≤ trigSlot).filter fun p =>
          p.args.slot ≠ trigSlot && p.usable).map Published.dict := by
  induction ring with
  | nil => rfl
  | cons p ring ih =>
    have heq : p.dict.slot = trigSlot.toNat ↔ p.args.slot = trigSlot := UInt64.toNat_inj
    have hlt : p.dict.slot < trigSlot.toNat ↔ p.args.slot < trigSlot := UInt64.lt_iff_toNat_lt.symm
    rw [List.map_cons, chooseBelow, List.find?_cons, RingEnt_usable_dict]
    by_cases hs : p.args.slot = trigSlot
    · simp [heq, hs]
    by_cases hb : p.args.slot < trigSlot
    · simp only [heq, hlt, if_neg hs, if_pos hb, UInt64.le_of_lt hb, decide_true, Option.filter_some]
      cases p.usable <;> simp [hs]
    · have hle : ¬ p.args.slot ≤ trigSlot := fun h =>
        hs (UInt64.le_antisymm h (UInt64.not_lt.mp hb))
      simp only [heq, hlt, if_neg hs, if_neg hb, hle, decide_false, ih]

/-- `choose_pred` over the listed ring. -/
theorem choosePred_map (ring : List Published) (trigSlot : UInt64) {sig : Option (List UInt8)}
    (hsig : ∀ g ∈ sig, g.length = 64) :
    choosePred (ring.map Published.dict) trigSlot.toNat sig
      = (predecessor ring trigSlot sig).map Published.dict := by
  unfold choosePred predecessor
  cases sig with
  | none =>
    have hnone : (ring.findIdx? fun p => (none : Option (List UInt8)).any fun g => p.args.sig64 == g)
        = none := by simp
    rw [hnone]
    exact chooseBelow_map trigSlot ring
  | some g =>
    have hne : g ≠ [] := by
      rintro rfl
      exact absurd (hsig [] rfl) (by decide)
    simp only [Option.bind_some, if_neg hne, chooseBehind_map, Option.any_some]
    cases ring.findIdx? fun p => p.args.sig64 == g with
    | none => exact chooseBelow_map trigSlot ring
    | some i => rfl

theorem filterMap_range {β : Type} {f : Nat → Option β} : ∀ {ys : List β},
    (∀ i (hi : i < ys.length), f i = some ys[i]) → (List.range ys.length).filterMap f = ys := by
  intro ys
  induction ys using List.reverseRecOn with
  | nil => exact fun _ => rfl
  | append_singleton ys y ih =>
    intro h
    have hlast : f ys.length = some y := by
      rw [h ys.length (by simp), List.getElem_concat_length rfl]
    have hinit : ∀ i (hi : i < ys.length), f i = some ys[i] := by
      intro i hi
      rw [h i (by rw [List.length_append]; omega), List.getElem_append_left hi]
    rw [List.length_append, List.length_singleton, List.range_succ, List.filterMap_append, ih hinit,
      List.filterMap_cons_some hlast, List.filterMap_nil]

/-- `dump_ring` lists the last 16 publications, newest first. -/
theorem dumpRing_eq {cap : Nat} {s : AuthPub} {h : History} (hrep : Rep cap s h) {idx : Nat}
    (hidx : idx < cap) : dumpRing s idx = ((h.ring idx).take ringCap).map Published.dict := by
  have hring := hrep.pools idx hidx
  have hhead : unpack s.mm (poolOff idx + 8) 4 = (h.ring idx).length := hring.head_eq
  rw [dumpRing, if_neg (by rw [hrep.cap_eq]; omega)]
  simp only [hhead]
  have hlen : (((h.ring idx).take ringCap).map Published.dict).length
      = min (h.ring idx).length ringCap := by
    rw [List.length_map, List.length_take, Nat.min_comm]
  rw [← hlen]
  refine filterMap_range fun i hi => ?_
  rw [hlen] at hi
  have hi' : i < (h.ring idx).length := by omega
  have hget := List.getElem?_eq_getElem hi'
  have hent : EntryAt s.mm (entOff idx (((h.ring idx).length - 1 - i) % ringCap)) (h.ring idx)[i] :=
    ⟨hring.ents i _ (by omega) hget, hring.fits _ (List.getElem_mem hi')⟩
  rw [hent.unpackEntHdr_eq, List.getElem_map, List.getElem_take]

/-! ## §6. Both readers. -/

theorem headerOk_eq {m : Memory} {cap : Nat} (h : HeaderAt m cap) (hpos : 0 < cap)
    (hcap : cap ≤ 65535) : headerOk m (mapSize cap) = some (UInt32.ofNat cap) := by
  have hmagic : u32 m 0 = 0x39304841 := congrArg UInt32.ofNat h.magic_eq
  have hblob : u32 m 16 = 2048 := congrArg UInt32.ofNat h.blob_eq
  have hc : u32 m 12 = UInt32.ofNat cap := congrArg UInt32.ofNat h.cap_eq
  -- `AUTH_RING << 16 | AUTH_VER` is the two half words read as one
  have hver : u32 m 4 = ((16 : UInt32) <<< 16 ||| 1) := by
    have hsplit : read m 4 4 = read m 4 2 ++ read m 6 2 := read_add m 4 2 2
    have hlow : leNat (read m 4 2) = 1 := h.ver_eq
    have hhigh : leNat (read m 6 2) = 16 := h.ring_eq
    rw [u32, hsplit, leNat_append, hlow, hhigh, length_read]
    decide
  have hcNat : (UInt32.ofNat cap).toNat = cap := by
    rw [UInt32.toNat_ofNat', Nat.mod_eq_of_lt (by omega)]
  have hrange : ¬ (UInt32.ofNat cap = 0 ∨ 65535 < UInt32.ofNat cap) := by
    rw [← UInt32.toNat_inj, UInt32.lt_iff_toNat_lt, hcNat]
    show ¬ (cap = 0 ∨ 65535 < cap)
    omega
  have hsize : ¬ mapSize cap < hdrSize + cap * poolSize := by
    unfold mapSize
    omega
  have hmin : ¬ mapSize cap < hdrSize := by
    unfold mapSize
    omega
  unfold headerOk
  simp only [if_neg hmin, hmagic, hver, hblob, hc, hcNat, ne_eq, not_true_eq_false, if_false,
    if_neg hrange, if_neg hsize]

/-- The sequence word of a represented pool is even. -/
theorem seq_low_bit {m : Memory} {idx : Nat} {ring : List Published} (h : RingAt m idx ring) :
    u64 m (poolOff idx) &&& 1 = 0 := by
  have hlt : seqOf m idx < 2 ^ 64 := by
    have hbound := leNat_lt (read m (poolOff idx) 8)
    rwa [length_read] at hbound
  have heven := h.seq_even
  apply UInt64.toNat_inj.mp
  rw [UInt64.toNat_and, u64, UInt64.toNat_ofNat']
  show seqOf m idx % 2 ^ 64 &&& 1 = 0
  rw [Nat.mod_eq_of_lt hlt, Nat.and_one_is_mod, heven]

/-- **`authpub_pred` on a represented map is the rule over the last 16 publications.** -/
theorem authpubPred_eq {cap : Nat} {s : AuthPub} {h : History} (hrep : Rep cap s h)
    (hcap : cap ≤ 65535) (idx : UInt32) (trigSlot : UInt64) (sig : Option (List UInt8)) :
    authpubPred s.mm (mapSize cap) idx trigSlot sig
      = if idx.toNat < cap then
          (predecessor ((h.ring idx.toNat).take ringCap) trigSlot sig).map Published.decoded
        else none := by
  have hheader := hrep.header
  rcases Nat.eq_zero_or_pos cap with rfl | hpos
  · -- a map without pools is refused
    have hc : u32 s.mm 12 = 0 := congrArg UInt32.ofNat hheader.cap_eq
    have hnone : headerOk s.mm (mapSize 0) = none := by
      unfold headerOk
      simp [hc]
    rw [authpubPred, poolBase, hnone, if_neg (Nat.not_lt_zero _)]
  have hcNat : (UInt32.ofNat cap).toNat = cap := by
    rw [UInt32.toNat_ofNat', Nat.mod_eq_of_lt (by omega)]
  have hle : UInt32.ofNat cap ≤ idx ↔ ¬ idx.toNat < cap := by
    rw [UInt32.le_iff_toNat_le, hcNat, Nat.not_lt]
  rw [authpubPred, poolBase, headerOk_eq hheader hpos hcap]
  by_cases hidx : idx.toNat < cap
  · have hring := hrep.pools idx.toNat hidx
    have heven := seq_low_bit hring
    have hpass := selectEnt_eq hring trigSlot sig
    simp only [hle, hidx, not_true_eq_false, if_false, if_true]
    show predLoop s.mm (poolOff idx.toNat) trigSlot sig 64 = _
    rw [predLoop]
    simp only [heven, ne_eq, not_true_eq_false, if_false, and_self, if_true, hpass]
  · simp only [hle, hidx, not_false_eq_true, if_true, if_false]

/-- The last 16 publications to a pool since the last reset. -/
def candidates (cap : Nat) (calls : List Call) (idx : Nat) : List Published :=
  if idx < cap then (sinceReset cap calls idx).take ringCap else []

/-- **The C reader and the publisher's own reader select the same publication.**
    For every run of the publisher that raises nothing, on any file, every pool,
    trigger slot and signature: both refuse, or both hand out the SAME publication,
    one of the last 16 since the last reset, decoded to what was published.  And a
    run raises nothing before a counter overflows. -/
theorem authpubPred_agrees {cap : Nat} (hcap : cap ≤ 65535) (m : Memory) (calls : List Call) :
    (∀ s, run cap m calls = some s →
      ∀ (idx : UInt32) (trigSlot : UInt64) (sig : Option (List UInt8)), (∀ g ∈ sig, g.length = 64) →
        ∃ selected : Option Published,
          selected = predecessor (candidates cap calls idx.toNat) trigSlot sig ∧
          authpubPred s.mm (mapSize cap) idx trigSlot sig = selected.map Published.decoded ∧
          choosePred (dumpRing s idx.toNat) trigSlot.toNat sig = selected.map Published.dict ∧
          ∀ p ∈ selected, p ∈ sinceReset cap calls idx.toNat) ∧
    (calls.length < 2 ^ 63 → (∀ idx, calls.countP (Call.publishesTo idx) < 2 ^ 32) →
      ∃ s, run cap m calls = some s) := by
  refine ⟨fun s hs idx trigSlot sig hsig => ?_, fun hlen hpub => ?_⟩
  · have hrep := Rep.run hs
    refine ⟨predecessor (candidates cap calls idx.toNat) trigSlot sig, rfl, ?_, ?_, ?_⟩
    · rw [authpubPred_eq hrep hcap, candidates]
      split
      · rfl
      · rfl
    · rw [candidates]
      split
      · rename_i hidx
        rw [dumpRing_eq hrep hidx, choosePred_map _ _ hsig]
        rfl
      · rename_i hidx
        have hnil : dumpRing s idx.toNat = ([] : List Published).map Published.dict := by
          rw [dumpRing, if_pos (by rw [hrep.cap_eq]; omega)]
          rfl
        rw [hnil, choosePred_map _ _ hsig]
    · intro p hp
      have hmem := mem_of_predecessor hp
      rw [candidates] at hmem
      split at hmem
      · exact List.mem_of_mem_take hmem
      · exact absurd hmem (by simp)
  · exact run_completes (by omega) m calls hlen hpub

/-- A publication at a slot, under a signature of one repeated byte. -/
def demoArgs (slot : UInt64) (tag : UInt8) : PublishArgs :=
  ⟨slot, [tag], 1, some (List.replicate 64 tag), some 7, none, coherent, false⟩

/-- One publication before the reset, three after it; the last is the trigger. -/
def demoCalls : List Call :=
  [.publish 0 (demoArgs 50 65), .resetHistory, .publish 0 (demoArgs 50 66), .publish 0 (demoArgs 51 67),
    .publish 0 (demoArgs 52 78)]

theorem authpubPred_agrees_demo :
    ∃ s, run 1 (fun _ => 7) demoCalls = some s ∧
      authpubPred s.mm (mapSize 1) 0 52 (some (List.replicate 64 78))
        = some (Published.decoded ⟨4, demoArgs 51 67⟩) ∧
      choosePred (dumpRing s 0) 52 (some (List.replicate 64 78))
        = some (Published.dict ⟨4, demoArgs 51 67⟩) := by
  have hall := authpubPred_agrees (show 1 ≤ 65535 by decide) (fun _ => 7) demoCalls
  obtain ⟨s, hs⟩ := hall.2 (by decide) fun idx => List.countP_le_length.trans_lt (by decide)
  have hsig : ∀ g ∈ some (List.replicate 64 (78 : UInt8)), g.length = 64 := by
    intro g hg
    obtain rfl := Option.some.inj hg
    rfl
  obtain ⟨selected, hsel, hc, hpy, -⟩ := hall.1 s hs 0 52 (some (List.replicate 64 78)) hsig
  have hval : predecessor (candidates 1 demoCalls 0) 52 (some (List.replicate 64 78))
      = some ⟨4, demoArgs 51 67⟩ := by decide
  rw [hsel] at hc hpy
  refine ⟨s, hs, hc.trans ?_, hpy.trans ?_⟩
  · exact congrArg (Option.map Published.decoded) hval
  · exact congrArg (Option.map Published.dict) hval

end ShredArb.Auth
