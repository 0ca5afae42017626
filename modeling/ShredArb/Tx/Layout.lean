/-
  ShredArb.Tx.Layout — the layout of a version 1 transaction, its offsets in
  32 bits (`frame_v1_layout`, `frame_v1_ix` of `arb-core/src/frame.c`).

  The layout walks the transaction once and keeps where its parts begin;
  `frame_v1_ix` walks the instruction headers again to find an instruction.
  Every consumer indexes the buffer by the two without further checks.

  The checks are of the form `off + n > len`, and the sum WRAPS: a transaction
  whose announced end is past 2³² passes them.

  Conventions:
    • every sum that the source forms in `uint32_t` goes through `u32`,
    • `p[i]` outside the buffer, which only a wrapped offset reaches, is 0.

  Main results:
    * `frameV1Layout_spec` — what an accepted layout says, sums wrapped,
    * `sizeSum`, `ixCursor_eq` — both walks add up the same sizes,
    * `layout_tiled_iff` — the parts tile the transaction exactly when its end
      does not wrap.
-/
import ShredArb.Tx.Keys

namespace ShredArb.Layout

open ShredArb.Bytes ShredArb.Tx

/-! ## §1. The layout (`frame_v1_layout`). -/

/-- A sum in `uint32_t`. -/
def u32 (n : Nat) : Nat := n % 2 ^ 32

/-- `frame_v1_t`. -/
structure FrameV1T where
  nsig : UInt8
  ninstr : UInt8
  naddr : UInt8
  mask : Nat
  keysOff : Nat
  cfgOff : Nat
  hdrOff : Nat
  payOff : Nat
  sigOff : Nat
  txEnd : Nat
  deriving DecidableEq, Repr

/-- `R_BAD` and `R_NEED`. -/
inductive FrameRc where
  | bad
  | need
  deriving DecidableEq, Repr

/-- The 32-bit word at an offset. -/
def wordAt (p : List UInt8) (off : Nat) : Nat :=
  leNat [byteAt p (u32 off), byteAt p (u32 (off + 1)), byteAt p (u32 (off + 2)),
    byteAt p (u32 (off + 3))]

/-- The program in the header of instruction `i`. -/
def progAt (p : List UInt8) (hdrOff i : Nat) : UInt8 := byteAt p (u32 (hdrOff + 4 * i))

/-- Its number of accounts. -/
def nacctAt (p : List UInt8) (hdrOff i : Nat) : Nat := (byteAt p (u32 (hdrOff + 4 * i + 1))).toNat

/-- Its length of data. -/
def dlenAt (p : List UInt8) (hdrOff i : Nat) : Nat :=
  (byteAt p (u32 (hdrOff + 4 * i + 2))).toNat + 256 * (byteAt p (u32 (hdrOff + 4 * i + 3))).toNat

/-- `v1_dups`. -/
def v1Dups (p : List UInt8) (keys n : Nat) : Bool :=
  (List.range n).any fun i => (List.range n).any fun j =>
    i < j && field p (keys + 32 * i) 32 == field p (keys + 32 * j) 32

/-- The first loop over the instructions, from the `i`-th on: `pay`. -/
def payLoop (p : List UInt8) (hdrOff : Nat) (naddr : UInt8) :
    (n i pay : Nat) → Except FrameRc Nat
  | 0, _, pay => .ok pay
  | n + 1, i, pay =>
    if progAt p hdrOff i ≥ naddr then .error .bad
    else payLoop p hdrOff naddr n (i + 1) (u32 (pay + (nacctAt p hdrOff i + dlenAt p hdrOff i)))

/-- The second loop: the cursor. -/
def cursorLoop (p : List UInt8) (hdrOff : Nat) (naddr : UInt8) :
    (n i cursor : Nat) → Except FrameRc Nat
  | 0, _, cursor => .ok cursor
  | n + 1, i, cursor =>
    if u32 (cursor + nacctAt p hdrOff i + dlenAt p hdrOff i) > p.length then .error .need
    else if (List.range (nacctAt p hdrOff i)).any fun a => byteAt p (u32 (cursor + a)) ≥ naddr then
      .error .bad
    else
      cursorLoop p hdrOff naddr n (i + 1)
        (u32 (cursor + (nacctAt p hdrOff i + dlenAt p hdrOff i)))

/-- `frame_v1_layout`. -/
def frameV1Layout (p : List UInt8) (start : Nat) : Except FrameRc FrameV1T :=
  let len := p.length
  if start ≥ len then .error .need
  else if byteAt p start ≠ txV1Prefix then .error .bad
  else if u32 (start + txV1HdrSize) > len then .error .need
  else
    let nsig := byteAt p (u32 (start + 1))
    let mask := wordAt p (start + 4)
    let ninstr := byteAt p (u32 (start + 40))
    let naddr := byteAt p (u32 (start + 41))
    if mask &&& txV1CfgKnown ≠ mask then .error .bad
    else if mask &&& 3 = 1 ∨ mask &&& 3 = 2 then .error .bad
    else if ninstr = 0 ∨ ninstr.toNat > txInstrMax then .error .bad
    else if !headerOk nsig (byteAt p (u32 (start + 2))) (byteAt p (u32 (start + 3))) naddr.toNat then
      .error .bad
    else
      let keysOff := u32 (start + txV1HdrSize)
      if u32 (keysOff + 32 * naddr.toNat) > len then .error .need
      else if v1Dups p keysOff naddr.toNat then .error .bad
      else
        let cfgOff := u32 (keysOff + 32 * naddr.toNat)
        if u32 (cfgOff + 4 * pop32 mask) > len then .error .need
        else
          let hdrOff := u32 (cfgOff + 4 * pop32 mask)
          if u32 (hdrOff + 4 * ninstr.toNat) > len then .error .need
          else
            (payLoop p hdrOff naddr ninstr.toNat 0 0).bind fun pay =>
              let payOff := u32 (hdrOff + 4 * ninstr.toNat)
              if u32 (payOff + 2 ^ 32 - start + pay + 64 * nsig.toNat) > txV1Max then .error .bad
              else if u32 (payOff + pay) > len then .error .need
              else
                (cursorLoop p hdrOff naddr ninstr.toNat 0 payOff).bind fun sigOff =>
                  if u32 (sigOff + 64 * nsig.toNat) > len then .error .need
                  else
                    .ok ⟨nsig, ninstr, naddr, mask, keysOff, cfgOff, hdrOff, payOff, sigOff,
                      u32 (sigOff + 64 * nsig.toNat)⟩

/-! ## §2. One instruction (`frame_v1_ix`). -/

/-- What `frame_v1_ix` writes. -/
structure V1Ix where
  prog : UInt8
  nacct : Nat
  dlen : Nat
  accOff : Nat
  dataOff : Nat
  deriving DecidableEq, Repr

/-- The cursor after the first `i` instructions. -/
def ixCursor (p : List UInt8) (l : FrameV1T) : Nat → Nat
  | 0 => l.payOff
  | j + 1 => u32 (ixCursor p l j + (nacctAt p l.hdrOff j + dlenAt p l.hdrOff j))

/-- `frame_v1_ix`. -/
def frameV1Ix (p : List UInt8) (l : FrameV1T) (i : Nat) : Option V1Ix :=
  if i ≥ l.ninstr.toNat then none
  else
    some ⟨progAt p l.hdrOff i, nacctAt p l.hdrOff i, dlenAt p l.hdrOff i, ixCursor p l i,
      u32 (ixCursor p l i + nacctAt p l.hdrOff i)⟩

/-! ## §3. What a layout should be. -/

/-- The slices of the instructions, accounts then data, in order: an offset and
a length each. -/
def slices (p : List UInt8) (l : FrameV1T) : List (Nat × Nat) :=
  (List.range l.ninstr.toNat).flatMap fun i =>
    match frameV1Ix p l i with
    | none => []
    | some ix => [(ix.accOff, ix.nacct), (ix.dataOff, ix.dlen)]

/-- The layout tiles the transaction at `start`.  The positions of the slices,
one after another, are those from `pay_off` to `sig_off`: no position twice,
and none left out. -/
structure Tiled (p : List UInt8) (start : Nat) (l : FrameV1T) : Prop where
  keys : l.keysOff = start + txV1HdrSize
  cfg : l.cfgOff = l.keysOff + 32 * l.naddr.toNat
  hdr : l.hdrOff = l.cfgOff + 4 * pop32 l.mask
  pay : l.payOff = l.hdrOff + 4 * l.ninstr.toNat
  ordered : l.payOff ≤ l.sigOff
  cover : ((slices p l).flatMap fun s => List.range' s.1 s.2)
    = List.range' l.payOff (l.sigOff - l.payOff)
  sigs : l.txEnd = l.sigOff + 64 * l.nsig.toNat
  size : l.txEnd - start ≤ txV1Max
  inBounds : l.txEnd ≤ p.length
  progs : ∀ i ix, frameV1Ix p l i = some ix → ix.prog < l.naddr
  accounts : ∀ i ix, frameV1Ix p l i = some ix → ∀ a < ix.nacct, byteAt p (ix.accOff + a) < l.naddr
  distinct : ((List.range l.naddr.toNat).map fun i => field p (l.keysOff + 32 * i) 32).Nodup

/-- The sizes of `n` instructions from the `i`-th on, together. -/
def sizeSum (p : List UInt8) (hdrOff i n : Nat) : Nat :=
  ((List.range' i n).map fun j => nacctAt p hdrOff j + dlenAt p hdrOff j).sum

/-- The length that the header fields of the transaction at `start` announce. -/
def txLength (p : List UInt8) (start : Nat) : Nat :=
  let nsig := (byteAt p (u32 (start + 1))).toNat
  let ninstr := (byteAt p (u32 (start + 40))).toNat
  let naddr := (byteAt p (u32 (start + 41))).toNat
  let hdr := txV1HdrSize + 32 * naddr + 4 * pop32 (wordAt p (start + 4))
  hdr + 4 * ninstr + sizeSum p (u32 (start + hdr)) 0 ninstr + 64 * nsig

/-! ## §4. Sums. -/

theorem u32_of_lt {n : Nat} (h : n < 2 ^ 32) : u32 n = n := Nat.mod_eq_of_lt h

theorem u32_lt (n : Nat) : u32 n < 2 ^ 32 := Nat.mod_lt n (by decide)

@[simp] theorem u32_add_left (a b : Nat) : u32 (u32 a + b) = u32 (a + b) := Nat.mod_add_mod a _ b

theorem sizeSum_succ (p : List UInt8) (hdrOff i n : Nat) : sizeSum p hdrOff i (n + 1)
    = nacctAt p hdrOff i + dlenAt p hdrOff i + sizeSum p hdrOff (i + 1) n := by
  rw [sizeSum, List.range'_succ, List.map_cons, List.sum_cons]
  rfl

theorem sizeSum_concat (p : List UInt8) (hdrOff i n : Nat) : sizeSum p hdrOff i (n + 1)
    = sizeSum p hdrOff i n + (nacctAt p hdrOff (i + n) + dlenAt p hdrOff (i + n)) := by
  rw [sizeSum, List.range'_1_concat, List.map_append, List.sum_append, List.map_singleton,
    List.sum_singleton]
  rfl

theorem sizeSum_mono (p : List UInt8) (hdrOff i : Nat) {m n : Nat} (h : m ≤ n) :
    sizeSum p hdrOff i m ≤ sizeSum p hdrOff i n := by
  induction n with
  | zero => rw [Nat.le_zero.mp h]
  | succ n ih =>
    rcases Nat.lt_or_ge n m with hlt | hge
    · rw [Nat.le_antisymm h hlt]
    · rw [sizeSum_concat]
      exact Nat.le_trans (ih hge) (Nat.le_add_right _ _)

/-- The first loop adds the sizes up, and every program is a key. -/
theorem payLoop_spec {p : List UInt8} {hdrOff : Nat} {naddr : UInt8} : ∀ {n i pay r : Nat},
    pay < 2 ^ 32 → payLoop p hdrOff naddr n i pay = .ok r →
    r = u32 (pay + sizeSum p hdrOff i n) ∧ ∀ k < n, progAt p hdrOff (i + k) < naddr := by
  intro n
  induction n with
  | zero =>
    intro i pay r hlt h
    obtain rfl := Except.ok.inj h
    exact ⟨(u32_of_lt hlt).symm, fun k hk => absurd hk (Nat.not_lt_zero k)⟩
  | succ n ih =>
    intro i pay r hlt h
    rw [payLoop] at h
    split at h
    · exact absurd h (by simp)
    · rename_i hprog
      obtain ⟨hr, hprogs⟩ := ih (u32_lt _) h
      refine ⟨?_, fun k hk => ?_⟩
      · rw [hr, u32_add_left, sizeSum_succ]
        congr 1
        omega
      · cases k with
        | zero => exact UInt8.not_le.mp hprog
        | succ k =>
          rw [show i + (k + 1) = i + 1 + k by omega]
          exact hprogs k (by omega)

/-- The second loop adds the same sizes up, and every account is a key. -/
theorem cursorLoop_spec {p : List UInt8} {hdrOff : Nat} {naddr : UInt8} : ∀ {n i cursor r : Nat},
    cursor < 2 ^ 32 → cursorLoop p hdrOff naddr n i cursor = .ok r →
    r = u32 (cursor + sizeSum p hdrOff i n) ∧
      ∀ k < n, ∀ a < nacctAt p hdrOff (i + k),
        byteAt p (u32 (cursor + sizeSum p hdrOff i k + a)) < naddr := by
  intro n
  induction n with
  | zero =>
    intro i cursor r hlt h
    obtain rfl := Except.ok.inj h
    exact ⟨(u32_of_lt hlt).symm, fun k hk => absurd hk (Nat.not_lt_zero k)⟩
  | succ n ih =>
    intro i cursor r hlt h
    rw [cursorLoop] at h
    split at h
    · exact absurd h (by simp)
    · split at h
      · exact absurd h (by simp)
      · rename_i haccounts
        obtain ⟨hr, hrest⟩ := ih (u32_lt _) h
        refine ⟨?_, fun k hk a ha => ?_⟩
        · rw [hr, u32_add_left, sizeSum_succ]
          congr 1
          omega
        · cases k with
          | zero =>
            refine UInt8.not_le.mp fun hge => haccounts ?_
            exact List.any_eq_true.mpr ⟨a, List.mem_range.mpr ha, decide_eq_true hge⟩
          | succ k =>
            rw [show i + (k + 1) = i + 1 + k by omega] at ha
            have hone := hrest k (by omega) a ha
            rw [Nat.add_assoc, u32_add_left] at hone
            rw [sizeSum_succ]
            have hsame : cursor + (nacctAt p hdrOff i + dlenAt p hdrOff i)
                  + (sizeSum p hdrOff (i + 1) k + a)
                = cursor + (nacctAt p hdrOff i + dlenAt p hdrOff i + sizeSum p hdrOff (i + 1) k) + a := by
              omega
            rwa [hsame] at hone

/-- The walk of `frame_v1_ix` adds the same sizes up. -/
theorem ixCursor_eq (p : List UInt8) {l : FrameV1T} (h : l.payOff < 2 ^ 32) (i : Nat) :
    ixCursor p l i = u32 (l.payOff + sizeSum p l.hdrOff 0 i) := by
  induction i with
  | zero => exact (u32_of_lt h).symm
  | succ i ih =>
    rw [ixCursor, ih, u32_add_left, sizeSum_concat, Nat.zero_add, Nat.add_assoc]

theorem nodup_of_not_dups {p : List UInt8} {keys n : Nat} (h : v1Dups p keys n = false) :
    ((List.range n).map fun i => field p (keys + 32 * i) 32).Nodup := by
  refine List.pairwise_map.mpr (List.Pairwise.imp_of_mem ?_ (List.pairwise_lt_range (n := n)))
  intro i j hi hj hij heq
  have hany : v1Dups p keys n = true :=
    List.any_eq_true.mpr ⟨i, hi, List.any_eq_true.mpr ⟨j, hj, by
      rw [Bool.and_eq_true, beq_iff_eq]
      exact ⟨decide_eq_true hij, heq⟩⟩⟩
  exact absurd (h.symm.trans hany) (by decide)

/-! ## §5. What an accepted layout says. -/

theorem ite_error_eq_ok {α : Type} {c : Prop} [Decidable c] {e : FrameRc} {x : Except FrameRc α}
    {r : α} (h : (if c then .error e else x) = .ok r) : ¬c ∧ x = .ok r := by
  split at h
  · exact absurd h (by simp)
  · rename_i hc
    exact ⟨hc, h⟩

theorem bind_eq_ok {α β : Type} {x : Except FrameRc α} {f : α → Except FrameRc β} {r : β}
    (h : x.bind f = .ok r) : ∃ a, x = .ok a ∧ f a = .ok r := by
  cases x with
  | error e => exact absurd h (by simp [Except.bind])
  | ok a => exact ⟨a, rfl, h⟩

/-- Where the instruction headers of the transaction at `start` stand, from
its start. -/
def hdrLength (p : List UInt8) (start : Nat) : Nat :=
  txV1HdrSize + 32 * (byteAt p (u32 (start + 41))).toNat + 4 * pop32 (wordAt p (start + 4))

/-- An accepted layout: its fields, its offsets as wrapped sums, its checks. -/
structure Accepted (p : List UInt8) (start : Nat) (l : FrameV1T) : Prop where
  nsig : l.nsig = byteAt p (u32 (start + 1))
  ninstr : l.ninstr = byteAt p (u32 (start + 40))
  naddr : l.naddr = byteAt p (u32 (start + 41))
  mask : l.mask = wordAt p (start + 4)
  startLt : start < p.length
  keysOff : l.keysOff = u32 (start + txV1HdrSize)
  cfgOff : l.cfgOff = u32 (start + txV1HdrSize + 32 * l.naddr.toNat)
  hdrOff : l.hdrOff = u32 (start + hdrLength p start)
  payOff : l.payOff = u32 (start + hdrLength p start + 4 * l.ninstr.toNat)
  sigOff : l.sigOff = u32 (l.payOff + sizeSum p l.hdrOff 0 l.ninstr.toNat)
  txEnd : l.txEnd = u32 (l.sigOff + 64 * l.nsig.toNat)
  proj : u32 (l.payOff + 2 ^ 32 - start + u32 (sizeSum p l.hdrOff 0 l.ninstr.toNat)
    + 64 * l.nsig.toNat) ≤ txV1Max
  inBounds : l.txEnd ≤ p.length
  progs : ∀ k < l.ninstr.toNat, progAt p l.hdrOff k < l.naddr
  accounts : ∀ k < l.ninstr.toNat, ∀ a < nacctAt p l.hdrOff k,
    byteAt p (u32 (l.payOff + sizeSum p l.hdrOff 0 k + a)) < l.naddr
  distinct : ((List.range l.naddr.toNat).map fun i => field p (l.keysOff + 32 * i) 32).Nodup

/-- **What an accepted layout says.** -/
theorem frameV1Layout_spec {p : List UInt8} {start : Nat} {l : FrameV1T}
    (h : frameV1Layout p start = .ok l) : Accepted p start l := by
  rw [frameV1Layout] at h
  extract_lets nsig mask ninstr naddr keysOff cfgOff hdrOff payOff at h
  -- the checks in order
  obtain ⟨hstart, h⟩ := ite_error_eq_ok h
  obtain ⟨-, h⟩ := ite_error_eq_ok h
  obtain ⟨-, h⟩ := ite_error_eq_ok h
  obtain ⟨-, h⟩ := ite_error_eq_ok h
  obtain ⟨-, h⟩ := ite_error_eq_ok h
  obtain ⟨-, h⟩ := ite_error_eq_ok h
  obtain ⟨-, h⟩ := ite_error_eq_ok h
  obtain ⟨-, h⟩ := ite_error_eq_ok h
  obtain ⟨hdups, h⟩ := ite_error_eq_ok h
  obtain ⟨-, h⟩ := ite_error_eq_ok h
  obtain ⟨-, h⟩ := ite_error_eq_ok h
  obtain ⟨pay, hpay, h⟩ := bind_eq_ok h
  obtain ⟨hproj, h⟩ := ite_error_eq_ok h
  obtain ⟨-, h⟩ := ite_error_eq_ok h
  obtain ⟨sigOff, hsig, h⟩ := bind_eq_ok h
  obtain ⟨hend, h⟩ := ite_error_eq_ok h
  obtain rfl := Except.ok.inj h
  obtain ⟨rfl, hprogs⟩ := payLoop_spec (by decide) hpay
  obtain ⟨rfl, haccounts⟩ := cursorLoop_spec (u32_lt _) hsig
  rw [Nat.zero_add] at hproj
  simp only [Nat.zero_add] at hprogs haccounts
  have hcfg : cfgOff = u32 (start + txV1HdrSize + 32 * naddr.toNat) := u32_add_left _ _
  have hhdr : hdrOff = u32 (start + hdrLength p start) := by
    show u32 (cfgOff + 4 * pop32 mask) = _
    rw [hcfg, u32_add_left]
    congr 1
    show _ = start + (txV1HdrSize + 32 * naddr.toNat + 4 * pop32 mask)
    omega
  exact
    { nsig := rfl
      ninstr := rfl
      naddr := rfl
      mask := rfl
      startLt := Nat.not_le.mp hstart
      keysOff := rfl
      cfgOff := hcfg
      hdrOff := hhdr
      payOff := by
        show u32 (hdrOff + 4 * ninstr.toNat) = _
        rw [hhdr, u32_add_left]
      sigOff := rfl
      txEnd := rfl
      proj := Nat.not_lt.mp hproj
      inBounds := Nat.not_lt.mp hend
      progs := hprogs
      accounts := haccounts
      distinct := nodup_of_not_dups (Bool.eq_false_of_not_eq_true hdups) }

theorem Accepted.txLength_eq {p : List UInt8} {start : Nat} {l : FrameV1T} (h : Accepted p start l) :
    txLength p start = hdrLength p start + 4 * l.ninstr.toNat
      + sizeSum p l.hdrOff 0 l.ninstr.toNat + 64 * l.nsig.toNat := by
  rw [h.hdrOff, h.ninstr, h.nsig]
  rfl

/-! ## §6. Tiling. -/

/-- The slices of `n` instructions that follow each other. -/
theorem range'_pairs (f g : Nat → Nat) : ∀ (n lo : Nat),
    ((List.range n).flatMap fun i =>
        [(lo + ((List.range i).map fun j => f j + g j).sum, f i),
          (lo + ((List.range i).map fun j => f j + g j).sum + f i, g i)]).flatMap
      (fun s => List.range' s.1 s.2)
    = List.range' lo ((List.range n).map fun j => f j + g j).sum := by
  intro n lo
  induction n with
  | zero => rfl
  | succ n ih =>
    rw [List.range_succ, List.flatMap_append, List.flatMap_append, ih, List.map_append,
      List.sum_append, List.flatMap_singleton]
    simp only [List.flatMap_cons, List.flatMap_nil, List.append_nil, List.map_cons, List.map_nil,
      List.sum_cons, List.sum_nil, Nat.add_zero]
    rw [List.range'_append_1, List.range'_append_1]

/-- **The parts tile the transaction** when its announced end does not wrap. -/
theorem Accepted.tiled {p : List UInt8} {start : Nat} {l : FrameV1T} (h : Accepted p start l)
    (hend : start + txLength p start < 2 ^ 32) : Tiled p start l := by
  have hlength := h.txLength_eq
  have hhdrLength : hdrLength p start
      = txV1HdrSize + 32 * l.naddr.toNat + 4 * pop32 l.mask := by
    rw [h.naddr, h.mask]
    rfl
  have hmono : ∀ k ≤ l.ninstr.toNat, sizeSum p l.hdrOff 0 k ≤ sizeSum p l.hdrOff 0 l.ninstr.toNat :=
    fun k hk => sizeSum_mono p l.hdrOff 0 hk
  -- no sum wraps
  have hkeys : l.keysOff = start + txV1HdrSize := by
    rw [h.keysOff, u32_of_lt (by omega)]
  have hcfg : l.cfgOff = l.keysOff + 32 * l.naddr.toNat := by
    rw [h.cfgOff, u32_of_lt (by omega), hkeys]
  have hhdr : l.hdrOff = l.cfgOff + 4 * pop32 l.mask := by
    rw [h.hdrOff, u32_of_lt (by omega), hcfg, hkeys]
    omega
  have hpay : l.payOff = start + hdrLength p start + 4 * l.ninstr.toNat := by
    rw [h.payOff, u32_of_lt (by omega)]
  have hcursor : ∀ k ≤ l.ninstr.toNat, ixCursor p l k = l.payOff + sizeSum p l.hdrOff 0 k := by
    intro k hk
    have hle := hmono k hk
    rw [ixCursor_eq p (by omega), u32_of_lt (by omega)]
  have hsig : l.sigOff = l.payOff + sizeSum p l.hdrOff 0 l.ninstr.toNat := by
    rw [h.sigOff, u32_of_lt (by omega)]
  have htx : l.txEnd = l.sigOff + 64 * l.nsig.toNat := by
    rw [h.txEnd, u32_of_lt (by omega)]
  have hix : ∀ i ix, frameV1Ix p l i = some ix → i < l.ninstr.toNat ∧
      ix = ⟨progAt p l.hdrOff i, nacctAt p l.hdrOff i, dlenAt p l.hdrOff i,
        l.payOff + sizeSum p l.hdrOff 0 i, l.payOff + sizeSum p l.hdrOff 0 i + nacctAt p l.hdrOff i⟩ := by
    intro i ix hi
    obtain ⟨hlt, hi⟩ := Option.ite_none_left_eq_some.mp hi
    have hlt' := Nat.not_le.mp hlt
    have hstep := hmono (i + 1) hlt'
    rw [sizeSum_concat, Nat.zero_add] at hstep
    rw [hcursor i (by omega), u32_of_lt (by omega)] at hi
    exact ⟨hlt', (Option.some.inj hi).symm⟩
  exact
    { keys := hkeys
      cfg := hcfg
      hdr := hhdr
      pay := by omega
      ordered := by omega
      cover := by
        have hslices : slices p l = (List.range l.ninstr.toNat).flatMap fun i =>
            [(l.payOff + sizeSum p l.hdrOff 0 i, nacctAt p l.hdrOff i),
              (l.payOff + sizeSum p l.hdrOff 0 i + nacctAt p l.hdrOff i, dlenAt p l.hdrOff i)] := by
          refine List.flatMap_congr fun i hi => ?_
          have hlt := List.mem_range.mp hi
          cases hget : frameV1Ix p l i with
          | none =>
            rw [frameV1Ix, if_neg (Nat.not_le.mpr hlt)] at hget
            exact absurd hget (by simp)
          | some ix =>
            obtain ⟨-, rfl⟩ := hix i ix hget
            rfl
        rw [hslices, hsig, Nat.add_sub_cancel_left]
        simp only [sizeSum, ← List.range_eq_range']
        exact range'_pairs _ _ _ _
      sigs := htx
      size := by
        have hproj := h.proj
        rw [u32_of_lt (n := sizeSum p l.hdrOff 0 l.ninstr.toNat) (by omega)] at hproj
        have hwrap : l.payOff + 2 ^ 32 - start + sizeSum p l.hdrOff 0 l.ninstr.toNat
            + 64 * l.nsig.toNat = txLength p start + 2 ^ 32 := by omega
        rw [hwrap, u32, Nat.add_mod_right, Nat.mod_eq_of_lt (by omega)] at hproj
        omega
      inBounds := h.inBounds
      progs := by
        intro i ix hi
        obtain ⟨hlt, rfl⟩ := hix i ix hi
        exact h.progs i hlt
      accounts := by
        intro i ix hi a ha
        obtain ⟨hlt, rfl⟩ := hix i ix hi
        have hstep := hmono (i + 1) hlt
        rw [sizeSum_concat, Nat.zero_add] at hstep
        have haccount := h.accounts i hlt a ha
        rwa [u32_of_lt (by
          have hbelow : a < nacctAt p l.hdrOff i := ha
          omega)] at haccount
      distinct := h.distinct }

/-- The lengths of the slices add up to the sizes of the instructions. -/
theorem sum_slices (p : List UInt8) (l : FrameV1T) :
    ((slices p l).map Prod.snd).sum = sizeSum p l.hdrOff 0 l.ninstr.toNat := by
  have hlist : ∀ is : List Nat, (∀ i ∈ is, i < l.ninstr.toNat) →
      ((is.flatMap fun i =>
        match frameV1Ix p l i with
        | none => []
        | some ix => [(ix.accOff, ix.nacct), (ix.dataOff, ix.dlen)]).map Prod.snd).sum
      = (is.map fun i => nacctAt p l.hdrOff i + dlenAt p l.hdrOff i).sum := by
    intro is
    induction is with
    | nil => exact fun _ => rfl
    | cons i is ih =>
      intro hlt
      have hi := hlt i List.mem_cons_self
      rw [List.flatMap_cons, List.map_append, List.sum_append,
        ih fun j hj => hlt j (List.mem_cons_of_mem i hj), List.map_cons, List.sum_cons, frameV1Ix,
        if_neg (Nat.not_le.mpr hi)]
      simp
  rw [slices, hlist _ fun i hi => List.mem_range.mp hi, sizeSum, ← List.range_eq_range']

/-- A tiled transaction ends where it announces, so in the buffer. -/
theorem Accepted.end_lt {p : List UInt8} {start : Nat} {l : FrameV1T} (h : Accepted p start l)
    (hlen : p.length < 2 ^ 32) (ht : Tiled p start l) : start + txLength p start < 2 ^ 32 := by
  have hlength := h.txLength_eq
  have hhdrLength : hdrLength p start
      = txV1HdrSize + 32 * l.naddr.toNat + 4 * pop32 l.mask := by
    rw [h.naddr, h.mask]
    rfl
  have hkeys := ht.keys
  have hcfg := ht.cfg
  have hhdr := ht.hdr
  have hpay := ht.pay
  have hsigs := ht.sigs
  have hordered := ht.ordered
  have hin := ht.inBounds
  -- the slices are as long as what they cover
  have hsize : sizeSum p l.hdrOff 0 l.ninstr.toNat = l.sigOff - l.payOff := by
    have hcover := congrArg List.length ht.cover
    rw [List.length_range', List.length_flatMap] at hcover
    simp only [List.length_range'] at hcover
    rw [← hcover, ← sum_slices]
  omega

/-- **The layout tiles the transaction** exactly when the end that its header
fields announce does not wrap. -/
theorem layout_tiled_iff {p : List UInt8} {start : Nat} {l : FrameV1T} (hlen : p.length < 2 ^ 32)
    (h : frameV1Layout p start = .ok l) :
    Tiled p start l ↔ start + txLength p start < 2 ^ 32 := by
  have haccepted := frameV1Layout_spec h
  exact ⟨haccepted.end_lt hlen, haccepted.tiled⟩

/-- One signer, one key, one instruction with one account and one byte of data,
and no configuration. -/
def smallTx : List UInt8 :=
  [0x81, 1, 0, 0, 0, 0, 0, 0] ++ List.replicate 32 0 ++ [1, 1] ++ List.replicate 32 5
    ++ [0, 1, 1, 0] ++ [0, 7] ++ List.replicate 64 9

/-- The layout of `smallTx` where it stands 3 bytes in. -/
def smallLayout : FrameV1T := ⟨1, 1, 1, 0, 45, 77, 77, 81, 83, 147⟩

theorem layout_tiled_iff_demo :
    Tiled ([1, 2, 3] ++ smallTx) 3 smallLayout ↔
      3 + txLength ([1, 2, 3] ++ smallTx) 3 < 2 ^ 32 :=
  layout_tiled_iff (by decide +kernel) (by decide +kernel)

/-- A transaction of 142 bytes without its signature, at the end of a buffer of
64 bytes less than 2³². -/
def cutTx : List UInt8 :=
  [0x81, 1, 0, 0, 0, 0, 0, 0] ++ List.replicate 32 0 ++ [1, 1] ++ List.replicate 36 0

theorem layout_of_cutTx {p : List UInt8} (hlen : p.length = 4294967232)
    (hbyte : ∀ k < 78, byteAt p (4294967154 + k) = byteAt cutTx k) :
    frameV1Layout p 4294967154
      = .ok ⟨1, 1, 1, 0, 4294967196, 4294967228, 4294967228, 4294967232, 4294967232, 0⟩ := by
  have hb : ∀ k < 78, byteAt p (u32 (4294967154 + k)) = byteAt cutTx k := by
    intro k hk
    rw [u32_of_lt (by omega)]
    exact hbyte k hk
  have h0 : byteAt p 4294967154 = 0x81 := hbyte 0 (by decide)
  have hsig : byteAt p (u32 (4294967154 + 1)) = 1 := hb 1 (by decide)
  have hro : byteAt p (u32 (4294967154 + 2)) = 0 := hb 2 (by decide)
  have hro' : byteAt p (u32 (4294967154 + 3)) = 0 := hb 3 (by decide)
  have hninstr : byteAt p (u32 (4294967154 + 40)) = 1 := hb 40 (by decide)
  have hnaddr : byteAt p (u32 (4294967154 + 41)) = 1 := hb 41 (by decide)
  have hmask : wordAt p (4294967154 + 4) = 0 := by
    have h4 : byteAt p (u32 (4294967154 + 4)) = 0 := hb 4 (by decide)
    have h5 : byteAt p (u32 (4294967154 + 4 + 1)) = 0 := hb 5 (by decide)
    have h6 : byteAt p (u32 (4294967154 + 4 + 2)) = 0 := hb 6 (by decide)
    have h7 : byteAt p (u32 (4294967154 + 4 + 3)) = 0 := hb 7 (by decide)
    rw [wordAt, h4, h5, h6, h7]
    decide
  have hprog : progAt p 4294967228 0 = 0 := hb 74 (by decide)
  have hnacct : nacctAt p 4294967228 0 = 0 := congrArg UInt8.toNat (hb 75 (by decide))
  have hdlen : dlenAt p 4294967228 0 = 0 := by
    have h76 : byteAt p (u32 (4294967228 + 4 * 0 + 2)) = 0 := hb 76 (by decide)
    have h77 : byteAt p (u32 (4294967228 + 4 * 0 + 3)) = 0 := hb 77 (by decide)
    rw [dlenAt, h76, h77]
    decide
  have hdups : ∀ keys, v1Dups p keys 1 = false := by
    intro keys
    simp [v1Dups]
  have hpay : payLoop p 4294967228 1 1 0 0 = .ok 0 := by
    simp [payLoop, hprog, hnacct, hdlen, u32]
  have hcursor : cursorLoop p 4294967228 1 1 0 4294967232 = .ok 4294967232 := by
    simp [cursorLoop, hnacct, hdlen, hlen, u32]
  have hpop : pop32 0 = 0 := by decide
  have hheader : headerOk 1 0 0 1 = true := by decide
  rw [frameV1Layout]
  simp only [hlen, h0, hsig, hro, hro', hninstr, hnaddr, hmask, hpop]
  simp [u32, txV1HdrSize, txV1Max, hdups, hheader, hpay, hcursor, Except.bind]

theorem byteAt_append (a b : List UInt8) (k : Nat) : byteAt (a ++ b) (a.length + k) = byteAt b k := by
  unfold byteAt
  rw [List.getD_eq_getElem?_getD, List.getElem?_append_right (Nat.le_add_right _ _),
    Nat.add_sub_cancel_left, ← List.getD_eq_getElem?_getD]

/-- At the end of the largest buffers the parts do not tile the transaction: a
signature that is not there is taken to end at 0. -/
theorem layout_not_tiled :
    ¬ ∀ (p : List UInt8) (start : Nat) (l : FrameV1T), p.length < 2 ^ 32 →
      frameV1Layout p start = .ok l → Tiled p start l := by
  intro h
  obtain ⟨n, hn⟩ : ∃ n, n = 4294967154 := ⟨_, rfl⟩
  have hzeros : (List.replicate n (0 : UInt8)).length = n := List.length_replicate
  have hcut : cutTx.length = 78 := by decide
  have hlen : (List.replicate n 0 ++ cutTx).length = 4294967232 := by
    rw [List.length_append, hzeros, hcut, hn]
  have hbyte : ∀ k < 78, byteAt (List.replicate n 0 ++ cutTx) (4294967154 + k) = byteAt cutTx k := by
    intro k _
    rw [← hn]
    have happend := byteAt_append (List.replicate n 0) cutTx k
    rwa [hzeros] at happend
  have htiled := h _ 4294967154 _ (by rw [hlen]; decide) (layout_of_cutTx hlen hbyte)
  -- the signature should end behind its start
  exact absurd htiled.sigs (by decide)

end ShredArb.Layout
