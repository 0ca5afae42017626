/-
  ShredArb.Ports.B58 — the two Python ports of base58
  (`arb-exec/scripts/exec_gates.py`, `arb-cap/trigger011/b58.py`).

  Python keeps the number in one integer and has no buffers and no length: its
  decoder gives the SHORTEST key of a string.  `b58_decode` is asked for a
  length and puts zeros before the shortest key.  A string is therefore read at
  every length from the shortest one up, and only at the shortest one is it what
  the key is written as.

  Main results:
    * `ports_agree` — the C functions and both ports, on every key and string,
    * `py_bijection` — the ports undo each other, at every length.
-/
import Mathlib.Data.Nat.Size
import ShredArb.Exec.B58
import ShredArb.Gates.Plane
import ShredArb.Lib.Bytes

namespace ShredArb.B58

open ShredArb.Radix ShredArb.Bytes

/-! ## §1. The ports. -/

/-- The loop of `b58encode` of `b58.py`: the text grows at the front.  Two
digits for every byte are enough. -/
def encodeLoop : (fuel n : Nat) → List Char → List Char
  | 0, _, out => out
  | fuel + 1, n, out =>
    if n ≠ 0 then encodeLoop fuel (n / 58) (alph (n % 58) :: out) else out

/-- `b58encode` of `b58.py`. -/
def b58encode (raw : List UInt8) : List Char :=
  List.replicate (zeros raw) '1' ++
    encodeLoop (2 * raw.length) (horner 256 0 (raw.map UInt8.toNat)) []

/-- `int.to_bytes(k, "big")` of a number that fits. -/
def toBytesBig (k n : Nat) : List UInt8 := (leBytes k n).reverse

/-- `b58decode`; a character that is no digit is a `ValueError`. -/
def b58decode (s : List Char) : Option (List UInt8) :=
  (lookup s).map fun xs =>
    let n := value xs
    List.replicate (ones s) 0 ++ toBytesBig ((Nat.size n + 7) / 8) n

/-! ## §2. Numbers as bytes. -/

/-- The bytes of a number, without zeros on top. -/
theorem leBytes_digits (n : Nat) :
    leBytes (Nat.digits 256 n).length n = (Nat.digits 256 n).map UInt8.ofNat := by
  induction n using Nat.strongRecOn with
  | _ n ih =>
    rcases Nat.eq_zero_or_pos n with rfl | hn
    · rw [Nat.digits_zero]
      rfl
    · have hlow : UInt8.ofNat (n % 256) = UInt8.ofNat n :=
        UInt8.toNat_inj.mp (by simp)
      rw [Nat.digits_def' (by norm_num) hn, List.length_cons, List.map_cons, leBytes,
        ih (n / 256) (Nat.div_lt_self hn (by norm_num)), hlow]

/-- `(n.bit_length() + 7) // 8` bytes. -/
theorem size_bytes (n : Nat) : (Nat.size n + 7) / 8 = (Nat.digits 256 n).length := by
  refine eq_of_forall_ge_iff fun k => ?_
  have hpow : 256 ^ k = 2 ^ (8 * k) := (pow_mul 2 8 k).symm
  rw [Nat.digits_length_le_iff (by norm_num), hpow, ← Nat.size_le]
  omega

theorem toBytesBig_size (n : Nat) :
    toBytesBig ((Nat.size n + 7) / 8) n = (Nat.digits 256 n).reverse.map UInt8.ofNat := by
  rw [toBytesBig, size_bytes, leBytes_digits, List.map_reverse]

/-! ## §3. Strings. -/

/-- Zeros in front do not count. -/
theorem horner_zeros (m k : Nat) (xs : List Nat) :
    horner m 0 (List.replicate k 0 ++ xs) = horner m 0 xs := by
  induction k with
  | zero => rfl
  | succ k ih =>
    show horner m (m * 0 + 0) (List.replicate k 0 ++ xs) = _
    exact ih

/-- The ones in front are digits too, and do not count. -/
theorem lookup_ones (s : List Char) :
    lookup s = (lookup (numeral s)).map (List.replicate (ones s) 0 ++ ·) := by
  conv_lhs => rw [← ones_append_numeral s]
  induction ones s with
  | zero => simp
  | succ k ih =>
    have hone : ALPH.idxOf? '1' = some 0 := by decide
    rw [List.replicate_succ, List.cons_append, lookup, List.mapM_cons, ← lookup, ih, hone]
    cases lookup (numeral s) <;> rfl

/-- What Python reads. -/
theorem b58decode_eq (s : List Char) : b58decode s =
    (lookup (numeral s)).map fun xs =>
      List.replicate (ones s) 0 ++ (Nat.digits 256 (value xs)).reverse.map UInt8.ofNat := by
  rw [b58decode, lookup_ones, Option.map_map]
  refine congrArg (Option.map · _) (funext fun xs => ?_)
  have hvalue : value (List.replicate (ones s) 0 ++ xs) = value xs := horner_zeros 58 _ xs
  simp only [Function.comp_apply, hvalue, toBytesBig_size]

/-- **`b58_decode` puts zeros before what Python reads.** -/
theorem b58Decode_py (s : List Char) (outLen : Nat) : b58Decode s outLen =
    if outLen = 0 ∨ outLen > 64 then none
    else (b58decode s).bind fun raw =>
      if raw.length > outLen then none
      else some (List.replicate (outLen - raw.length) 0 ++ raw) := by
  rw [b58Decode_eq, b58decode_eq]
  split
  · rfl
  · cases lookup (numeral s) with
    | none => rfl
    | some xs =>
      rw [Option.map_some, Option.bind_some, Option.bind_some, List.length_append,
        List.length_replicate, List.length_map, List.length_reverse]
      by_cases hlong : ones s + (Nat.digits 256 (value xs)).length > outLen
      · rw [if_pos hlong, if_pos hlong]
      · rw [if_neg hlong, if_neg hlong, ← List.append_assoc, ← List.replicate_add]
        congr 4
        omega

/-! ## §4. Keys. -/

theorem encodeLoop_eq (fuel n : Nat) (out : List Char) (h : (Nat.digits 58 n).length ≤ fuel) :
    encodeLoop fuel n out = (Nat.digits 58 n).reverse.map alph ++ out := by
  induction fuel generalizing n out with
  | zero =>
    have hnil := List.length_eq_zero_iff.mp (Nat.le_zero.mp h)
    rw [hnil]
    rfl
  | succ fuel ih =>
    rcases Nat.eq_zero_or_pos n with rfl | hn
    · rw [Nat.digits_zero]
      rfl
    · rw [Nat.digits_def' (by norm_num) hn, List.length_cons] at h
      rw [encodeLoop, if_pos hn.ne', ih _ _ (by omega), Nat.digits_def' (by norm_num) hn,
        List.reverse_cons, List.map_append, List.append_assoc]
      rfl

/-- The number of a key, zeros in front and all. -/
theorem number_eq (raw : List UInt8) : horner 256 0 (raw.map UInt8.toNat) = number raw := by
  conv_lhs => rw [← zeros_append_significant raw]
  rw [List.map_append, List.map_replicate]
  exact horner_zeros 256 _ _

/-- Two digits for every byte. -/
theorem length_digits_le_twice (raw : List UInt8) :
    (Nat.digits 58 (number raw)).length ≤ 2 * raw.length := by
  have hsig := zeros_add_length raw
  have hpow : 256 ^ (significant raw).length ≤ 58 ^ (2 * raw.length) := by
    calc 256 ^ (significant raw).length ≤ 256 ^ raw.length :=
          Nat.pow_le_pow_right (by norm_num) (by omega)
      _ ≤ (58 ^ 2) ^ raw.length := Nat.pow_le_pow_left (by norm_num) _
      _ = 58 ^ (2 * raw.length) := by rw [← pow_mul]
  rw [Nat.digits_length_le_iff (by norm_num)]
  exact lt_of_lt_of_le (number_lt raw) hpow

theorem b58encode_text (raw : List UInt8) : b58encode raw = text raw := by
  rw [b58encode, number_eq, encodeLoop_eq _ _ _ (length_digits_le_twice raw), List.append_nil, text]

/-- The digits `exec_gates.py` collects. -/
theorem gates_digits (fuel n : Nat) (h : (Nat.digits 58 n).length ≤ fuel) :
    Gates.b58Digits fuel n = (Nat.digits 58 n).map alph := by
  have halph : ∀ d < 58, Gates.b58Alphabet.getD d '1' = alph d := by decide
  induction fuel generalizing n with
  | zero =>
    have hnil := List.length_eq_zero_iff.mp (Nat.le_zero.mp h)
    rw [hnil]
    rfl
  | succ fuel ih =>
    rcases Nat.eq_zero_or_pos n with rfl | hn
    · rw [Nat.digits_zero]
      rfl
    · rw [Nat.digits_def' (by norm_num) hn] at h ⊢
      rw [List.length_cons] at h
      rw [Gates.b58Digits, if_neg hn.ne', ih _ (by omega), List.map_cons,
        halph _ (Nat.mod_lt _ (by norm_num))]

theorem gates_b58encode (raw : List UInt8) : Gates.b58encode raw = text raw := by
  have hnumber : Gates.beNat raw = number raw := by
    rw [← number_eq, horner, List.foldl_map]
    rfl
  rw [Gates.b58encode, hnumber, gates_digits _ _ (length_digits_le_twice raw), text,
    List.map_reverse]
  rfl

/-- **The three encoders write the same, and the decoders read the same**, up to
the zeros in front. -/
theorem b58_ports_agree :
    (∀ raw, Gates.b58encode raw = b58encode raw) ∧
    (∀ raw outCap, b58Encode raw outCap =
      if raw.length = 0 ∨ raw.length > 64 ∨ (b58encode raw).length + 1 > outCap then none
      else some (b58encode raw)) ∧
    ∀ s outLen, b58Decode s outLen =
      if outLen = 0 ∨ outLen > 64 then none
      else (b58decode s).bind fun raw =>
        if raw.length > outLen then none
        else some (List.replicate (outLen - raw.length) 0 ++ raw) := by
  refine ⟨fun raw => ?_, fun raw outCap => ?_, b58Decode_py⟩
  · rw [gates_b58encode, b58encode_text]
  · rw [b58encode_text]
    by_cases hlen : raw.length = 0 ∨ raw.length > 64
    · rw [b58Encode, if_pos hlen, if_pos (or_assoc.mp (Or.inl hlen))]
    · rw [b58Encode_eq (by omega) (by omega)]
      simp only [← or_assoc, hlen, false_or]

/-! ## §5. There and back, at every length. -/

/-- A key that was read starts with as many zeros as its string has ones. -/
theorem zeros_of_digits (k v : Nat) :
    (List.replicate k (0 : UInt8) ++ (Nat.digits 256 v).reverse.map UInt8.ofNat).takeWhile (· == 0)
      = List.replicate k 0 := by
  have hzeros : ∀ b ∈ List.replicate k (0 : UInt8), (b == 0) = true := fun b hb => by
    rw [List.eq_of_mem_replicate hb]
    rfl
  rw [List.takeWhile_append_of_pos hzeros]
  cases hrev : (Nat.digits 256 v).reverse with
  | nil => exact List.append_nil _
  | cons d ds =>
    have hd : d ≠ 0 := top_digit_ne_zero 256 (v := v) (by rw [hrev, List.head?_cons])
    have hmem : d ∈ Nat.digits 256 v := List.mem_reverse.mp (hrev ▸ List.mem_cons_self)
    have hlt : d < 256 := Nat.digits_lt_base (by norm_num) hmem
    have hne : UInt8.ofNat d ≠ 0 := fun h0 => hd (by
      have := congrArg UInt8.toNat h0
      rw [UInt8.toNat_ofNat_of_lt' hlt] at this
      exact this)
    rw [List.map_cons, List.takeWhile_cons_of_neg (by simpa using hne), List.append_nil]

/-- The bytes of digits are the digits. -/
theorem toNat_ofNat_digits (v : Nat) :
    ((Nat.digits 256 v).reverse.map UInt8.ofNat).map UInt8.toNat = (Nat.digits 256 v).reverse := by
  rw [List.map_map]
  conv_rhs => rw [← List.map_id (Nat.digits 256 v).reverse]
  refine List.map_congr_left fun d hd => ?_
  exact UInt8.toNat_ofNat_of_lt' (Nat.digits_lt_base (by norm_num) (List.mem_reverse.mp hd))

/-- **The ports undo each other**: a string is what a key is written as if and
only if the key is what the string reads as. -/
theorem py_bijection (raw : List UInt8) (s : List Char) :
    b58encode raw = s ↔ b58decode s = some raw := by
  rw [b58encode_text]
  constructor
  · intro h
    have hbytes : (significant raw).map (UInt8.ofNat ∘ UInt8.toNat) = significant raw := by
      conv_rhs => rw [← List.map_id (significant raw)]
      exact List.map_congr_left fun b _ => UInt8.ofNat_toNat
    have hvalue : value (Nat.digits 58 (number raw)).reverse = number raw := horner_digits 58 _
    rw [← h, b58decode_eq, numeral_text, lookup_map_alph (digit_lt raw), ones_text,
      Option.map_some, hvalue, digits_number, List.reverse_reverse, List.map_map, hbytes,
      zeros_append_significant]
  · intro h
    rw [b58decode_eq] at h
    obtain ⟨xs, hxs, hraw⟩ := Option.map_eq_some_iff.mp h
    obtain ⟨hchars, hlt⟩ := lookup_eq_some hxs
    -- the zeros of the key are the ones of the string, its number the value
    have hzeros : zeros raw = ones s := by
      rw [zeros, ← hraw, zeros_of_digits, List.length_replicate]
    have hnumber : number raw = value xs := by
      rw [← number_eq, ← hraw, List.map_append, List.map_replicate, toNat_ofNat_digits]
      exact (horner_zeros 256 _ _).trans (horner_digits 256 _)
    have hdigits : Nat.digits 58 (value xs) = xs.reverse :=
      digits_horner (by norm_num) hlt (head_numeral hxs)
    rw [text, hzeros, hnumber, hdigits, List.reverse_reverse, ← hchars, ones_append_numeral]

end ShredArb.B58
