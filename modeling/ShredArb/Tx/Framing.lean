/-
  ShredArb.Tx.Framing — framing a transaction out of bytes that are still
  arriving (`arb-core/src/frame.c`, `frame.h`).

  `frame_try_at` and `frame_try_any` answer FRAMED, INCOMPLETE (wait for another
  fragment) or INVALID (permanent reject).  They are scans, and stable ones: a
  fragment that arrives later changes INCOMPLETE only.

  Conventions:
    • offsets are naturals: below 2³¹ bytes no sum of the source wraps,
    • a scan returns the transaction it read; the source keeps the hit of it,
    • what an unfinished call leaves in `*out` is not part of the model.

  Main results:
    * `stable_frameTry` — later bytes change INCOMPLETE only,
    * `frameTx_v0Tx` — a framed v0 transaction is one of the wire format,
    * `frameTry_stable` — with the cut.
-/
import ShredArb.Lib.Scan
import ShredArb.Tx.Frame

namespace ShredArb.Framing

open ShredArb.Univ ShredArb.Bytes ShredArb.Scan ShredArb.Tx

/-! ## §1. Legacy and v0 (`frame_parse`). -/

/-- `cu16`. -/
def cu16 : Scanner Nat :=
  andThen byte fun b0 =>
    if b0 &&& 0x80 = 0 then ret b0.toNat
    else andThen byte fun b1 =>
      if b1 &&& 0x80 = 0 then
        if b1 = 0 then bad else ret ((b0 &&& 0x7f).toNat ||| (b1.toNat <<< 7))
      else andThen byte fun b2 =>
        if b2 &&& 0xfc ≠ 0 ∨ b2 = 0 then bad
        else ret (((b0 &&& 0x7f).toNat ||| ((b1 &&& 0x7f).toNat <<< 7) ||| (b2.toNat <<< 14))
          % 2 ^ 16)

/-- A key. -/
def key : Scanner Mint := andThen (take 32) fun bs => ret (BitVec.ofNat 256 (leNat bs))

/-- A signature. -/
def signature : Scanner (List UInt8) := take 64

/-- `is_dex`. -/
def isDex (k : Mint) : Bool := k == progDlmm || k == progPump

/-- One instruction.  A legacy one names static keys only; the indices of a
versioned one may count into the lookup tables. -/
def frameIx (versioned : Bool) (nkeys : Nat) : Scanner CompiledIx :=
  andThen byte fun prog =>
    if versioned = false ∧ prog.toNat ≥ nkeys then bad
    else andThen cu16 fun nacct =>
      if nacct > 255 then bad
      else andThen (take nacct) fun accounts =>
        if versioned = false ∧ accounts.any (·.toNat ≥ nkeys) then bad
        else andThen cu16 fun dlen => andThen (take dlen) fun data => ret ⟨prog, accounts, data⟩

/-- One lookup table. -/
def frameLut : Scanner Lookup :=
  andThen key fun table => andThen cu16 fun nw => andThen (take nw) fun writable =>
    andThen cu16 fun nr => andThen (take nr) fun readonly => ret ⟨table, writable, readonly⟩

/-- The lookup tables; a legacy message has none. -/
def frameLuts (versioned : Bool) : Scanner (List Lookup) :=
  if versioned then
    andThen cu16 fun nlut => if nlut > frameLutMax then bad else times frameLut nlut
  else ret []

/-- The version, and the number of signers where it is not the first byte. -/
def frameVersion (nsig : UInt8) : Scanner Bool :=
  andThen byte fun b0 =>
    if b0 &&& 0x80 ≠ 0 then
      if b0 &&& 0x7f ≠ 0 then bad
      else andThen byte fun n => if n ≠ nsig then bad else ret true
    else if b0 ≠ nsig then bad
    else ret false

/-- The message after its number of signers. -/
def frameMessage (versioned : Bool) (sigs : List (List UInt8)) (nsig : UInt8) : Scanner V0Tx :=
  andThen byte fun roSigned => andThen byte fun roUnsigned => andThen cu16 fun nkeys =>
    if headerOk nsig roSigned roUnsigned nkeys = false then bad
    else andThen (times key nkeys) fun keys => andThen key fun blockhash => andThen cu16 fun ninstr =>
      if ninstr = 0 ∨ ninstr > txInstrMax then bad
      else andThen (times (frameIx versioned nkeys) ninstr) fun ixs =>
        andThen (frameLuts versioned) fun lookups =>
          ret ⟨sigs, nsig, roSigned, roUnsigned, keys, blockhash, ixs, lookups⟩

/-- A legacy or v0 transaction, and whether it is versioned. -/
structure FramedTx where
  versioned : Bool
  tx : V0Tx
  deriving DecidableEq, Repr

/-- What `frame_parse` reads. -/
def frameTx : Scanner FramedTx :=
  andThen cu16 fun nsig =>
    if nsig < 1 ∨ nsig > txSigMax then bad
    else andThen (times signature nsig) fun sigs =>
      andThen (frameVersion (UInt8.ofNat nsig)) fun versioned =>
        andThen (frameMessage versioned sigs (UInt8.ofNat nsig)) fun tx => ret ⟨versioned, tx⟩

abbrev frameVerLegacy : UInt8 := 0
abbrev frameVerV0 : UInt8 := 1

/-- `frame_hit_t` of a framed transaction. -/
structure FrameHit where
  nsig : UInt8
  versioned : UInt8
  haveDex : Bool
  nkeys : Nat
  ninstr : Nat
  txOff : Nat
  txEnd : Nat
  deriving DecidableEq, Repr

/-- `have_dex`: a program that is a static key, else any static key. -/
def FramedTx.haveDex (f : FramedTx) : Bool :=
  (f.tx.ixs.any fun ix => (f.tx.keys[ix.prog.toNat]?).any isDex) || f.tx.keys.any isDex

def FramedTx.hit (f : FramedTx) (start off : Nat) : FrameHit where
  nsig := UInt8.ofNat f.tx.sigs.length
  versioned := if f.versioned then frameVerV0 else frameVerLegacy
  haveDex := f.haveDex
  nkeys := f.tx.keys.length
  ninstr := f.tx.ixs.length
  txOff := start
  txEnd := off

/-- `frame_parse`. -/
def frameParse (requireDex : Bool) : Scanner FrameHit :=
  andThen pos fun start => andThen frameTx fun f => andThen pos fun off =>
    if requireDex && !f.haveDex then bad else ret (f.hit start off)

/-! ## §2. Version 1 (`frame_v1_layout`, `frame_parse_v1`). -/

/-- The header of an instruction. -/
structure V1Head where
  prog : UInt8
  nacct : Nat
  dlen : Nat
  deriving DecidableEq, Repr

def v1Head : Scanner V1Head :=
  andThen (take 4) fun h =>
    ret ⟨byteAt h 0, (byteAt h 1).toNat, (byteAt h 2).toNat + 256 * (byteAt h 3).toNat⟩

/-- The accounts and the data of an instruction. -/
def v1Body (naddr : Nat) (h : V1Head) : Scanner CompiledIx :=
  andThen (take (h.nacct + h.dlen)) fun body =>
    if (body.take h.nacct).any (·.toNat ≥ naddr) then bad
    else ret ⟨h.prog, body.take h.nacct, body.drop h.nacct⟩

/-- `pay`. -/
def payload (heads : List V1Head) : Nat := (heads.map fun h => h.nacct + h.dlen).sum

/-- A version 1 transaction. -/
structure V1Tx where
  nsig : UInt8
  keys : List Mint
  ixs : List CompiledIx
  sigs : List (List UInt8)
  deriving DecidableEq, Repr

/-- The instructions and the signatures, from their headers on. -/
def v1Tail (start : Nat) (nsig : UInt8) (keys : List Mint) (ninstr : Nat) : Scanner V1Tx :=
  andThen (times v1Head ninstr) fun heads =>
    if heads.any (·.prog.toNat ≥ keys.length) then bad
    else andThen pos fun off =>
      if off - start + payload heads + 64 * nsig.toNat > txV1Max then bad
      else andThen (avail (payload heads)) fun _ => andThen (each (v1Body keys.length) heads) fun ixs =>
        andThen (times signature nsig.toNat) fun sigs => ret ⟨nsig, keys, ixs, sigs⟩

/-- `frame_v1_layout`, its start known. -/
def frameV1From (start : Nat) : Scanner V1Tx :=
  andThen byte fun b =>
    if b ≠ txV1Prefix then bad
    else andThen (take (txV1HdrSize - 1)) fun h =>
      let nsig := byteAt h 0
      let mask := leNat (field h 3 4)
      let ninstr := (byteAt h 39).toNat
      let naddr := (byteAt h 40).toNat
      if mask &&& txV1CfgKnown ≠ mask ∨ mask &&& 3 = 1 ∨ mask &&& 3 = 2 then bad
      else if ninstr = 0 ∨ ninstr > txInstrMax then bad
      else if headerOk nsig (byteAt h 1) (byteAt h 2) naddr = false then bad
      else andThen (times key naddr) fun keys =>
        if ¬keys.Nodup then bad
        else andThen (take (4 * pop32 mask)) fun _ => v1Tail start nsig keys ninstr

/-- `frame_v1_layout`. -/
def frameV1 : Scanner V1Tx := andThen pos frameV1From

def V1Tx.hit (t : V1Tx) (start off : Nat) : FrameHit where
  nsig := t.nsig
  versioned := frameVerV1
  haveDex := t.keys.any isDex
  nkeys := t.keys.length
  ninstr := t.ixs.length
  txOff := start
  txEnd := off

/-- `frame_parse_v1`. -/
def frameParseV1 (requireDex : Bool) : Scanner FrameHit :=
  andThen pos fun start => andThen frameV1 fun t => andThen pos fun off =>
    if requireDex && !t.keys.any isDex then bad else ret (t.hit start off)

/-- `frame_try_at` and `frame_try_any` but for the required program. -/
def frameTry (requireDex : Bool) : Scanner FrameHit := fun p start =>
  if p[start]? = some txV1Prefix then frameParseV1 requireDex p start
  else frameParse requireDex p start

/-- `frame_try_at`. -/
def frameTryAt : Scanner FrameHit := frameTry true

/-- `frame_try_any`. -/
def frameTryAny : Scanner FrameHit := frameTry false

/-! ## §3. Stability. -/

theorem stable_cu16 : Stable cu16 :=
  stable_byte.andThen fun _ => (stable_ret _).ite (stable_byte.andThen fun _ =>
    (stable_bad.ite (stable_ret _)).ite (stable_byte.andThen fun _ => stable_bad.ite (stable_ret _)))

theorem stable_key : Stable key := (stable_take 32).andThen fun _ => stable_ret _

theorem stable_frameIx (versioned : Bool) (nkeys : Nat) : Stable (frameIx versioned nkeys) :=
  stable_byte.andThen fun _ => stable_bad.ite (stable_cu16.andThen fun _ => stable_bad.ite
    ((stable_take _).andThen fun _ => stable_bad.ite (stable_cu16.andThen fun _ =>
      (stable_take _).andThen fun _ => stable_ret _)))

theorem stable_frameLut : Stable frameLut :=
  stable_key.andThen fun _ => stable_cu16.andThen fun _ => (stable_take _).andThen fun _ =>
    stable_cu16.andThen fun _ => (stable_take _).andThen fun _ => stable_ret _

theorem stable_frameLuts (versioned : Bool) : Stable (frameLuts versioned) :=
  (stable_cu16.andThen fun _ => stable_bad.ite (stable_frameLut.times _)).ite (stable_ret _)

theorem stable_frameVersion (nsig : UInt8) : Stable (frameVersion nsig) :=
  stable_byte.andThen fun _ =>
    (stable_bad.ite (stable_byte.andThen fun _ => stable_bad.ite (stable_ret _))).ite
      (stable_bad.ite (stable_ret _))

theorem stable_frameMessage (versioned : Bool) (sigs : List (List UInt8)) (nsig : UInt8) :
    Stable (frameMessage versioned sigs nsig) :=
  stable_byte.andThen fun _ => stable_byte.andThen fun _ => stable_cu16.andThen fun _ => stable_bad.ite
    ((stable_key.times _).andThen fun _ => stable_key.andThen fun _ => stable_cu16.andThen fun _ =>
      stable_bad.ite (((stable_frameIx versioned _).times _).andThen fun _ =>
        (stable_frameLuts versioned).andThen fun _ => stable_ret _))

theorem stable_frameTx : Stable frameTx :=
  stable_cu16.andThen fun _ => stable_bad.ite (((stable_take 64).times _).andThen fun _ =>
    (stable_frameVersion _).andThen fun _ => (stable_frameMessage _ _ _).andThen fun _ => stable_ret _)

theorem stable_frameParse (requireDex : Bool) : Stable (frameParse requireDex) :=
  stable_pos.andThen fun _ => stable_frameTx.andThen fun _ => stable_pos.andThen fun _ =>
    stable_bad.ite (stable_ret _)

theorem stable_v1Body (naddr : Nat) (h : V1Head) : Stable (v1Body naddr h) :=
  (stable_take _).andThen fun _ => stable_bad.ite (stable_ret _)

theorem stable_v1Tail (start : Nat) (nsig : UInt8) (keys : List Mint) (ninstr : Nat) :
    Stable (v1Tail start nsig keys ninstr) :=
  (((stable_take 4).andThen fun _ => stable_ret _).times _).andThen fun _ => stable_bad.ite
    (stable_pos.andThen fun _ => stable_bad.ite ((stable_avail _).andThen fun _ =>
      (Stable.each (stable_v1Body _) _).andThen fun _ => ((stable_take 64).times _).andThen fun _ =>
        stable_ret _))

theorem stable_frameV1 : Stable frameV1 :=
  stable_pos.andThen fun _ => stable_byte.andThen fun _ => stable_bad.ite ((stable_take _).andThen fun _ =>
    stable_bad.ite (stable_bad.ite (stable_bad.ite ((stable_key.times _).andThen fun _ =>
      stable_bad.ite ((stable_take _).andThen fun _ => stable_v1Tail _ _ _ _)))))

theorem stable_frameParseV1 (requireDex : Bool) : Stable (frameParseV1 requireDex) :=
  stable_pos.andThen fun _ => stable_frameV1.andThen fun _ => stable_pos.andThen fun _ =>
    stable_bad.ite (stable_ret _)

/-- Nothing has arrived at the start. -/
theorem frameTry_need {requireDex : Bool} {p : List UInt8} {start : Nat} (h : p.length ≤ start) :
    frameTry requireDex p start = .need := by
  have hnone : p[start]? = none := List.getElem?_eq_none_iff.mpr h
  have hbyte : byte p start = .need := by rw [byte, hnone]
  have htx : frameTx p start = .need := andThen_need (andThen_need hbyte)
  rw [frameTry, hnone, if_neg (by simp)]
  exact andThen_need (s := frameTx) htx

/-- The dispatch depends on a byte that is there. -/
theorem frameTry_append_of_lt {requireDex : Bool} {p : List UInt8} {start : Nat} (h : start < p.length)
    (q : List UInt8) : frameTry requireDex (p ++ q) start
      = (if p[start]? = some txV1Prefix then frameParseV1 requireDex (p ++ q) start
        else frameParse requireDex (p ++ q) start) := by
  rw [frameTry, List.getElem?_append_left h]

/-- **Later bytes change INCOMPLETE only.** -/
theorem stable_frameTry (requireDex : Bool) : Stable (frameTry requireDex) where
  le h := by
    unfold frameTry at h
    split at h
    · exact (stable_frameParseV1 requireDex).le h
    · exact (stable_frameParse requireDex).le h
  within hoff h := by
    unfold frameTry at h
    split at h
    · exact (stable_frameParseV1 requireDex).within hoff h
    · exact (stable_frameParse requireDex).within hoff h
  ok_append {p start x o} q hoff h := by
    have hlt : start < p.length := by
      by_contra hge
      rw [frameTry_need (by omega)] at h
      exact absurd h (by simp)
    rw [frameTry_append_of_lt hlt]
    unfold frameTry at h
    split at h
    · rename_i hv1
      rw [if_pos hv1]
      exact (stable_frameParseV1 requireDex).ok_append q hoff h
    · rename_i hv1
      rw [if_neg hv1]
      exact (stable_frameParse requireDex).ok_append q hoff h
  bad_append {p start} q hoff h := by
    have hlt : start < p.length := by
      by_contra hge
      rw [frameTry_need (by omega)] at h
      exact absurd h (by simp)
    rw [frameTry_append_of_lt hlt]
    unfold frameTry at h
    split at h
    · rename_i hv1
      rw [if_pos hv1]
      exact (stable_frameParseV1 requireDex).bad_append q hoff h
    · rename_i hv1
      rw [if_neg hv1]
      exact (stable_frameParse requireDex).bad_append q hoff h

/-! ## §4. Hits. -/

theorem consumes_cu16 : Consumes cu16 :=
  consumes_byte.andThen fun _ => (stable_ret _).ite (stable_byte.andThen fun _ =>
    (stable_bad.ite (stable_ret _)).ite (stable_byte.andThen fun _ => stable_bad.ite (stable_ret _)))

theorem consumes_frameTx : Consumes frameTx :=
  consumes_cu16.andThen fun _ => stable_bad.ite (((stable_take 64).times _).andThen fun _ =>
    (stable_frameVersion _).andThen fun _ => (stable_frameMessage _ _ _).andThen fun _ => stable_ret _)

theorem consumes_frameV1From (start : Nat) : Consumes (frameV1From start) :=
  consumes_byte.andThen fun _ => stable_bad.ite ((stable_take _).andThen fun _ =>
    stable_bad.ite (stable_bad.ite (stable_bad.ite ((stable_key.times _).andThen fun _ =>
      stable_bad.ite ((stable_take _).andThen fun _ => stable_v1Tail start _ _ _)))))

/-- What is accepted once a transaction is read: where a program is required, the
transaction must have one. -/
theorem gate_eq_ok {α : Type} {read : Scanner α} {haveDex : α → Bool} {mk : α → Nat → FrameHit}
    {requireDex : Bool} {p : List UInt8} {start o : Nat} {hit : FrameHit} :
    andThen read (fun t => andThen pos fun off =>
        if requireDex && !haveDex t then bad else ret (mk t off)) p start = .ok hit o ↔
      ∃ t, read p start = .ok t o ∧ hit = mk t o ∧ (requireDex = true → haveDex t = true) := by
  rw [andThen_eq_ok]
  constructor
  · rintro ⟨t, o', ht, h⟩
    simp only [andThen, pos] at h
    split at h
    · exact absurd h (by simp [bad])
    · rename_i hdex
      obtain ⟨rfl, rfl⟩ := Res.ok.inj h
      refine ⟨t, ht, rfl, fun hreq => ?_⟩
      rw [hreq] at hdex
      simpa using hdex
  · rintro ⟨t, ht, rfl, hdex⟩
    refine ⟨t, o, ht, ?_⟩
    simp only [andThen, pos]
    rw [if_neg]
    · rfl
    · intro hno
      rw [Bool.and_eq_true, Bool.not_eq_true'] at hno
      rw [hdex hno.1] at hno
      exact absurd hno.2 (by simp)

/-- What `frame_parse` accepted: the transaction and its hit. -/
theorem frameParse_eq_ok {requireDex : Bool} {p : List UInt8} {start o : Nat} {hit : FrameHit} :
    frameParse requireDex p start = .ok hit o ↔
      ∃ f, frameTx p start = .ok f o ∧ hit = f.hit start o ∧ (requireDex = true → f.haveDex = true) := by
  show andThen frameTx _ p start = .ok hit o ↔ _
  exact gate_eq_ok

/-- What `frame_parse_v1` accepted. -/
theorem frameParseV1_eq_ok {requireDex : Bool} {p : List UInt8} {start o : Nat} {hit : FrameHit} :
    frameParseV1 requireDex p start = .ok hit o ↔
      ∃ t, frameV1 p start = .ok t o ∧ hit = t.hit start o ∧
        (requireDex = true → t.keys.any isDex = true) := by
  show andThen frameV1 _ p start = .ok hit o ↔ _
  exact gate_eq_ok

/-- The span of a hit. -/
theorem frameTry_span {requireDex : Bool} {p : List UInt8} {start o : Nat} {hit : FrameHit}
    (h : frameTry requireDex p start = .ok hit o) :
    start < p.length ∧ hit.txOff = start ∧ hit.txEnd = o ∧ start < o := by
  have hlt : start < p.length := by
    by_contra hge
    rw [frameTry_need (by omega)] at h
    exact absurd h (by simp)
  refine ⟨hlt, ?_⟩
  unfold frameTry at h
  split at h
  · obtain ⟨t, ht, rfl, -⟩ := frameParseV1_eq_ok.mp h
    exact ⟨rfl, rfl, consumes_frameV1From start ht⟩
  · obtain ⟨f, hf, rfl, -⟩ := frameParse_eq_ok.mp h
    exact ⟨rfl, rfl, consumes_frameTx hf⟩

/-- **Framing decisions are stable**: with more data a hit stays the same hit and
a reject a reject, and a hit cut anywhere before its end is incomplete. -/
theorem frameTry_stable (requireDex : Bool) (p q : List UInt8) (start : Nat) :
    (∀ hit o, frameTry requireDex p start = .ok hit o →
      frameTry requireDex (p ++ q) start = .ok hit o ∧
      hit.txOff = start ∧ hit.txEnd = o ∧ hit.txOff < hit.txEnd ∧ hit.txEnd ≤ p.length ∧
      ∀ k, k < hit.txEnd → frameTry requireDex (p.take k) start = .need) ∧
    (frameTry requireDex p start = .bad → frameTry requireDex (p ++ q) start = .bad) := by
  have hstable := stable_frameTry requireDex
  constructor
  · intro hit o h
    obtain ⟨hlt, hoff, hend, hpos⟩ := frameTry_span h
    have hin := hstable.within (Nat.le_of_lt hlt) h
    refine ⟨hstable.ok_append q (Nat.le_of_lt hlt) h, hoff, hend, by omega, by omega, fun k hk => ?_⟩
    by_cases hbefore : start ≤ k
    · exact hstable.need_of_cut h hbefore (by omega) (by omega)
    · -- the cut is before the start
      refine frameTry_need ?_
      rw [List.length_take]
      omega
  · intro h
    have hlt : start < p.length := by
      by_contra hge
      rw [frameTry_need (by omega)] at h
      exact absurd h (by simp)
    exact hstable.bad_append q (Nat.le_of_lt hlt) h

/-! ## §5. The wire format. -/

theorem same_cu16 : Same cu16 cu16Dec := by
  have hdec : cu16Dec = Parse.andThen Parse.byte fun b0 =>
      if b0 &&& 0x80 = 0 then Parse.done b0.toNat
      else Parse.andThen Parse.byte fun b1 =>
        if b1 &&& 0x80 = 0 then
          if b1 = 0 then Parse.fail else Parse.done ((b0 &&& 0x7f).toNat ||| (b1.toNat <<< 7))
        else Parse.andThen Parse.byte fun b2 =>
          if b2 &&& 0xfc ≠ 0 ∨ b2 = 0 then Parse.fail
          else Parse.done (((b0 &&& 0x7f).toNat ||| ((b1 &&& 0x7f).toNat <<< 7) |||
            (b2.toNat <<< 14)) % 2 ^ 16) := by
    funext bs
    rcases bs with _ | ⟨b0, r0⟩
    · rfl
    · by_cases h0 : b0 &&& 0x80 = 0
      · simp only [cu16Dec, Parse.andThen, Parse.byte, Option.bind_some, if_pos h0, Parse.done]
      · rcases r0 with _ | ⟨b1, r1⟩
        · simp only [cu16Dec, Parse.andThen, Parse.byte, Option.bind_some, Option.bind_none, if_neg h0]
        · by_cases h1 : b1 &&& 0x80 = 0
          · simp only [cu16Dec, Parse.andThen, Parse.byte, Option.bind_some, if_neg h0, if_pos h1]
            split <;> rfl
          · rcases r1 with _ | ⟨b2, r2⟩
            · simp only [cu16Dec, Parse.andThen, Parse.byte, Option.bind_some, Option.bind_none,
                if_neg h0, if_neg h1]
            · simp only [cu16Dec, Parse.andThen, Parse.byte, Option.bind_some, if_neg h0, if_neg h1]
              split <;> rfl
  rw [hdec]
  exact same_byte.andThen stable_byte fun b0 => (same_ret _).ite
    (same_byte.andThen stable_byte fun b1 => (same_bad.ite (same_ret _)).ite
      (same_byte.andThen stable_byte fun b2 => same_bad.ite (same_ret _)))

theorem same_key : Same key Tx.key := (same_take 32).andThen (stable_take 32) fun _ => same_ret _

theorem refines_cu16 : Refines cu16 cu16Dec := same_cu16.refines

theorem refines_key : Refines key Tx.key := same_key.refines

/-- A length and that many bytes, and then the rest. -/
theorem vec_byte_andThen {α : Type} (f : List UInt8 → Parse.Parser α) :
    Parse.andThen (vec Parse.byte) f
      = Parse.andThen cu16Dec fun n => Parse.andThen (Parse.exactly n) f := by
  unfold vec
  rw [Parse.andThen_assoc]
  congr 1
  funext n
  rw [Parse.times_byte]

theorem vec_andThen {α β : Type} (q : Parse.Parser α) (f : List α → Parse.Parser β) :
    Parse.andThen (vec q) f
      = Parse.andThen cu16Dec fun n => Parse.andThen (Parse.times q n) f :=
  Parse.andThen_assoc _ _ _

theorem refines_frameIx (versioned : Bool) (nkeys : Nat) :
    Refines (frameIx versioned nkeys) compiledIx := by
  unfold frameIx compiledIx
  simp only [vec_byte_andThen]
  refine same_byte.refines.andThen stable_byte fun prog => Refines.guard ?_
  refine refines_cu16.andThen stable_cu16 fun nacct => Refines.guard ?_
  refine (same_take _).refines.andThen (stable_take _) fun accounts => Refines.guard ?_
  refine refines_cu16.andThen stable_cu16 fun dlen => ?_
  exact (same_take _).refines.andThen (stable_take _) fun data => (same_ret _).refines

theorem refines_frameLut : Refines frameLut lookup := by
  unfold frameLut lookup
  simp only [vec_byte_andThen]
  refine refines_key.andThen stable_key fun table => ?_
  refine refines_cu16.andThen stable_cu16 fun nw => ?_
  refine (same_take _).refines.andThen (stable_take _) fun writable => ?_
  refine refines_cu16.andThen stable_cu16 fun nr => ?_
  exact (same_take _).refines.andThen (stable_take _) fun readonly => (same_ret _).refines

theorem refines_frameLuts : Refines (frameLuts true) (vec lookup) := by
  unfold frameLuts vec
  rw [if_pos rfl]
  exact refines_cu16.andThen stable_cu16 fun nlut => (refines_frameLut.times stable_frameLut nlut).guard

/-- The message after its number of signers, on the wire. -/
def v0Rest (sigs : List (List UInt8)) (nSigned : UInt8) : Parse.Parser V0Tx :=
  Parse.andThen Parse.byte fun roSigned => Parse.andThen Parse.byte fun roUnsigned =>
  Parse.andThen (vec Tx.key) fun keys => Parse.andThen Tx.key fun blockhash =>
  Parse.andThen (vec compiledIx) fun ixs => Parse.andThen (vec lookup) fun lookups =>
    Parse.done ⟨sigs, nSigned, roSigned, roUnsigned, keys, blockhash, ixs, lookups⟩

theorem refines_frameMessage (sigs : List (List UInt8)) (nsig : UInt8) :
    Refines (frameMessage true sigs nsig) (v0Rest sigs nsig) := by
  unfold frameMessage v0Rest
  simp only [vec_andThen Tx.key, vec_andThen compiledIx]
  refine same_byte.refines.andThen stable_byte fun roSigned => ?_
  refine same_byte.refines.andThen stable_byte fun roUnsigned => ?_
  refine refines_cu16.andThen stable_cu16 fun nkeys => Refines.guard ?_
  refine (refines_key.times stable_key nkeys).andThen (stable_key.times nkeys) fun keys => ?_
  refine refines_key.andThen stable_key fun blockhash => ?_
  refine refines_cu16.andThen stable_cu16 fun ninstr => Refines.guard ?_
  refine ((refines_frameIx true nkeys).times (stable_frameIx true nkeys) ninstr).andThen
    ((stable_frameIx true nkeys).times ninstr) fun ixs => ?_
  exact refines_frameLuts.andThen (stable_frameLuts true) fun lookups => (same_ret _).refines

/-- The version byte of a v0 message is 0x80. -/
theorem version_byte {b : UInt8} (h : b &&& 0x80 ≠ 0) (h0 : b &&& 0x7f = 0) : b = 0x80 := by
  have hall : ∀ n : Fin 256, UInt8.ofNat n.val &&& 0x80 ≠ 0 → UInt8.ofNat n.val &&& 0x7f = 0 →
      UInt8.ofNat n.val = 0x80 := by decide +kernel
  have hb := hall ⟨b.toNat, UInt8.toNat_lt b⟩
  simp only [UInt8.ofNat_toNat] at hb
  exact hb h h0

/-- A versioned message starts with 0x80 and its number of signers. -/
theorem frameVersion_true {nsig : UInt8} {p : List UInt8} {off o : Nat}
    (h : frameVersion nsig p off = .ok true o) :
    byte p off = .ok 0x80 (off + 1) ∧ byte p (off + 1) = .ok nsig o ∧ o = off + 2 := by
  obtain ⟨b0, o1, hb0, h⟩ := andThen_eq_ok.mp h
  obtain ⟨-, rfl⟩ := byte_eq_ok.mp hb0
  split at h
  · rename_i hver
    split at h
    · exact absurd h (by simp [bad])
    · rename_i hzero
      obtain ⟨n, o2, hn, h⟩ := andThen_eq_ok.mp h
      obtain ⟨-, rfl⟩ := byte_eq_ok.mp hn
      split at h
      · exact absurd h (by simp [bad])
      · rename_i hnsig
        obtain ⟨-, rfl⟩ := Res.ok.inj h
        rw [version_byte hver (not_not.mp hzero)] at hb0
        rw [not_not.mp hnsig] at hn
        exact ⟨hb0, hn, rfl⟩
  · split at h
    · exact absurd h (by simp [bad])
    · exact absurd (Res.ok.inj h).1 (by simp)

/-- **A framed v0 transaction is one of the wire format.** -/
theorem frameTx_v0Tx {p : List UInt8} {start o : Nat} {f : FramedTx} (hoff : start ≤ p.length)
    (h : frameTx p start = .ok f o) (hver : f.versioned = true) :
    v0Tx (p.drop start) = some (f.tx, p.drop o) := by
  obtain ⟨nsig, o1, hn, h⟩ := andThen_eq_ok.mp h
  split at h
  · exact absurd h (by simp [bad])
  · obtain ⟨sigs, o2, hsigs, h⟩ := andThen_eq_ok.mp h
    obtain ⟨versioned, o3, hv, h⟩ := andThen_eq_ok.mp h
    obtain ⟨tx, o4, htx, h⟩ := andThen_eq_ok.mp h
    obtain ⟨rfl, rfl⟩ := Res.ok.inj h
    obtain rfl : versioned = true := hver
    obtain ⟨hbyte, hsigned, -⟩ := frameVersion_true hv
    have hin1 := stable_cu16.within hoff hn
    have hin2 := ((stable_take 64).times nsig).within hin1 hsigs
    have hin3 := stable_byte.within hin2 hbyte
    have hin4 := stable_byte.within hin3 hsigned
    have hvec : vec (Parse.exactly 64) (p.drop start) = some (sigs, p.drop o2) :=
      Parse.andThen_eq_some.mpr ⟨nsig, p.drop o1, refines_cu16 _ _ _ _ hoff hn,
        (same_take 64).refines.times (stable_take 64) nsig _ _ _ _ hin1 hsigs⟩
    refine Parse.andThen_eq_some.mpr ⟨sigs, p.drop o2, hvec, ?_⟩
    refine Parse.andThen_eq_some.mpr
      ⟨0x80, p.drop (o2 + 1), same_byte.refines _ _ _ _ hin2 hbyte, ?_⟩
    rw [if_pos rfl]
    exact Parse.andThen_eq_some.mpr ⟨UInt8.ofNat nsig, p.drop o3,
      same_byte.refines _ _ _ _ hin3 hsigned, refines_frameMessage _ _ _ _ _ _ hin4 htx⟩

end ShredArb.Framing
