/-
  ShredArb.Exec.B58 — keys and signatures as text.

  A key is up to 64 bytes.  `b58_encode` reads its bytes as the digits of a
  number in base 256 and keeps the number in base 58; `b58_decode` goes the
  other way.  Zero bytes in front are no part of the number: each is a `1`.

  The decoder starts with one digit, zero, in its buffer, the encoder with none;
  from the first digit that counts on the buffers hold the digits of a number.

  Main results:
    * `b58Encode_eq`, `b58Decode_eq` — what the two compute,
    * `b58_roundTrip` — every key reads back as it was.
-/
import ShredArb.Lib.Radix

namespace ShredArb.B58

open ShredArb.Radix

/-! ## §1. The two functions. -/

/-- `ALPH`. -/
def ALPH : List Char :=
  ['1', '2', '3', '4', '5', '6', '7', '8', '9', 'A', 'B', 'C', 'D', 'E', 'F', 'G', 'H', 'J', 'K',
   'L', 'M', 'N', 'P', 'Q', 'R', 'S', 'T', 'U', 'V', 'W', 'X', 'Y', 'Z', 'a', 'b', 'c', 'd', 'e',
   'f', 'g', 'h', 'i', 'j', 'k', 'm', 'n', 'o', 'p', 'q', 'r', 's', 't', 'u', 'v', 'w', 'x', 'y',
   'z']

/-- The character of a digit; behind the last stands the terminator. -/
def alph (d : Nat) : Char := ALPH.getD d '\x00'

/-- `sizeof(buf)`, `sizeof(tmp)`. -/
abbrev bufSize : Nat := 128

/-- One turn of `b58_decode`: a character and what it adds to the buffer. -/
def decodeStep (buf : List Nat) (c : Char) : Option (List Nat) :=
  (ALPH.idxOf? c).bind fun p => mulAdd 256 bufSize 58 buf p

/-- The zero digits on top go. -/
def trim (buf : List Nat) : List Nat := (buf.reverse.dropWhile (· == 0)).reverse

/-- `b58_decode`, of a string without its terminator. -/
def b58Decode (s : List Char) (outLen : Nat) : Option (List UInt8) :=
  if outLen = 0 ∨ outLen > 64 then none
  else
    let pad := (s.takeWhile (· == '1')).length
    ((s.drop pad).foldlM decodeStep [0]).bind fun buf =>
      let digits := trim buf
      if pad + digits.length > outLen then none
      else some (List.replicate (outLen - digits.length) 0 ++ digits.reverse.map UInt8.ofNat)

/-- `b58_encode`: the string without its terminator, for which there is room. -/
def b58Encode (bytes : List UInt8) (outCap : Nat) : Option (List Char) :=
  if bytes.length = 0 ∨ bytes.length > 64 then none
  else
    let pad := (bytes.takeWhile (· == 0)).length
    ((bytes.drop pad).foldlM (fun tmp b => mulAdd 58 bufSize 256 tmp b.toNat) []).bind fun tmp =>
      if pad + tmp.length + 1 > outCap then none
      else some (List.replicate pad '1' ++ tmp.reverse.map alph)

/-! ## §2. The alphabet. -/

theorem idxOf_alph : ∀ d < 58, ALPH.idxOf? (alph d) = some d := by decide

theorem alph_ne_one : ∀ d < 58, d ≠ 0 → (alph d == '1') = false := by decide

/-- A first digit that counts finds the buffer as if it were empty. -/
theorem mulAdd_first : ∀ p < 58, p ≠ 0 →
    mulAdd 256 bufSize 58 [0] p = mulAdd 256 bufSize 58 (Nat.digits 256 0) p := by
  intro p hp hpos
  have hlist : ∀ p < 58, p ≠ 0 →
      mulAdd 256 bufSize 58 [0] p = mulAdd 256 bufSize 58 [] p := by decide +kernel
  rw [Nat.digits_zero]
  exact hlist p hp hpos

/-! ## §3. Keys. -/

/-- The zeros in front of a key. -/
def zeros (bytes : List UInt8) : Nat := (bytes.takeWhile (· == 0)).length

/-- The bytes that count. -/
def significant (bytes : List UInt8) : List UInt8 := bytes.drop (zeros bytes)

/-- The number of a key. -/
def number (bytes : List UInt8) : Nat := horner 256 0 ((significant bytes).map UInt8.toNat)

/-- A list is what it starts with and the rest, whatever stands in front. -/
theorem drop_length_takeWhile {α : Type} (p : α → Bool) (l : List α) :
    l.drop (l.takeWhile p).length = l.dropWhile p := by
  conv_lhs => arg 2; rw [← List.takeWhile_append_dropWhile (p := p) (l := l)]
  exact List.drop_left

theorem significant_eq (bytes : List UInt8) : significant bytes = bytes.dropWhile (· == 0) :=
  drop_length_takeWhile _ bytes

theorem zeros_add_length (bytes : List UInt8) :
    zeros bytes + (significant bytes).length = bytes.length := by
  have h := congrArg List.length (List.takeWhile_append_dropWhile (p := (· == 0)) (l := bytes))
  rw [List.length_append] at h
  rwa [significant_eq, zeros]

/-- A key is its zeros and its number. -/
theorem zeros_append_significant (bytes : List UInt8) :
    List.replicate (zeros bytes) 0 ++ significant bytes = bytes := by
  have hzero : bytes.takeWhile (· == 0) = List.replicate (zeros bytes) 0 :=
    List.eq_replicate_iff.mpr ⟨rfl, fun b hb => by
      simpa using List.all_eq_true.mp (List.all_takeWhile (l := bytes)) b hb⟩
  rw [significant_eq, ← hzero, List.takeWhile_append_dropWhile]

/-- The digits of the number are the bytes that count. -/
theorem digits_number (bytes : List UInt8) :
    Nat.digits 256 (number bytes) = ((significant bytes).map UInt8.toNat).reverse := by
  refine digits_horner (by norm_num) (fun x hx => ?_) (fun x hx => ?_)
  · obtain ⟨b, -, rfl⟩ := List.mem_map.mp hx
    exact b.toNat_lt
  · have hhead := List.head?_dropWhile_not (· == (0 : UInt8)) bytes
    rw [List.head?_map, significant_eq] at hx
    cases h : (bytes.dropWhile (· == 0)).head? with
    | none => rw [h] at hx; exact absurd hx (by simp)
    | some b =>
      rw [h] at hx hhead
      have hb : b ≠ 0 := by simpa using hhead
      have hbx : b.toNat = x := by simpa using hx
      exact fun h0 => hb (UInt8.toNat_inj.mp (hbx.trans h0))

theorem number_lt (bytes : List UInt8) : number bytes < 256 ^ (significant bytes).length := by
  have hlt : ∀ x ∈ (significant bytes).map UInt8.toNat, x < 256 := fun x hx => by
    obtain ⟨b, -, rfl⟩ := List.mem_map.mp hx
    exact b.toNat_lt
  have h := horner_lt (by norm_num) hlt
  rwa [List.length_map] at h

/-- A character for each byte that counts and 24 more are enough. -/
theorem length_digits_le {bytes : List UInt8} (hlen : bytes.length ≤ 64) :
    (Nat.digits 58 (number bytes)).length ≤ (significant bytes).length + 24 := by
  have hpow : ∀ k ≤ 64, 256 ^ k ≤ 58 ^ (k + 24) := by decide +kernel
  have hsig := zeros_add_length bytes
  rw [Nat.digits_length_le_iff (by norm_num)]
  exact lt_of_lt_of_le (number_lt bytes) (hpow _ (by omega))

/-! ## §4. The encoder. -/

/-- The text of a key. -/
def text (bytes : List UInt8) : List Char :=
  List.replicate (zeros bytes) '1' ++ (Nat.digits 58 (number bytes)).reverse.map alph

theorem length_text (bytes : List UInt8) :
    (text bytes).length = zeros bytes + (Nat.digits 58 (number bytes)).length := by
  rw [text, List.length_append, List.length_replicate, List.length_map, List.length_reverse]

/-- A text is 88 characters at most. -/
theorem length_text_le {bytes : List UInt8} (hlen : bytes.length ≤ 64) :
    (text bytes).length ≤ 88 := by
  have hdigits := length_digits_le hlen
  have hsig := zeros_add_length bytes
  rw [length_text]
  omega

/-- The loop of the encoder never runs out of its buffer. -/
theorem encode_loop {bytes : List UInt8} (hlen : bytes.length ≤ 64) :
    (significant bytes).foldlM (fun tmp b => mulAdd 58 bufSize 256 tmp b.toNat) []
      = some (Nat.digits 58 (number bytes)) := by
  have hdigits := length_digits_le hlen
  have hsig := zeros_add_length bytes
  have hfit : (Nat.digits 58 (number bytes)).length ≤ bufSize := by
    have hbuf : bufSize = 128 := rfl
    omega
  have hempty : (Nat.digits 58 0).length ≤ bufSize := by simp
  have hconvert := convert_digits (by norm_num) (show 0 < 256 by norm_num)
    ((significant bytes).map UInt8.toNat) 0 hempty
  rw [convert, List.foldlM_map, ← number, if_pos hfit, Nat.digits_zero] at hconvert
  exact hconvert

/-- **What `b58_encode` writes.** -/
theorem b58Encode_eq {bytes : List UInt8} (hpos : 1 ≤ bytes.length) (hlen : bytes.length ≤ 64)
    (outCap : Nat) : b58Encode bytes outCap =
      if (text bytes).length + 1 > outCap then none else some (text bytes) := by
  have hloop := encode_loop hlen
  rw [b58Encode, if_neg (by omega)]
  simp only [significant, zeros] at hloop ⊢
  rw [hloop, length_text]
  rfl

/-! ## §5. The decoder. -/

/-- The digits of a string, or none if a character is not one. -/
def lookup (cs : List Char) : Option (List Nat) := cs.mapM fun c => ALPH.idxOf? c

/-- The characters of digits are digits. -/
theorem lookup_map_alph {xs : List Nat} (hlt : ∀ x ∈ xs, x < 58) :
    lookup (xs.map alph) = some xs := by
  induction xs with
  | nil => rfl
  | cons x xs ih =>
    have htail := ih fun y hy => hlt y (List.mem_cons_of_mem _ hy)
    rw [lookup] at htail ⊢
    rw [List.map_cons, List.mapM_cons, idxOf_alph x (hlt x List.mem_cons_self), htail]
    rfl

/-- What a string looks up to, it is the characters of. -/
theorem lookup_eq_some {cs : List Char} {xs : List Nat} (h : lookup cs = some xs) :
    cs = xs.map alph ∧ ∀ x ∈ xs, x < 58 := by
  induction cs generalizing xs with
  | nil =>
    have hxs : [] = xs := Option.some.inj h
    subst hxs
    exact ⟨rfl, by simp⟩
  | cons c cs ih =>
    rw [lookup, List.mapM_cons] at h
    cases hc : ALPH.idxOf? c with
    | none => rw [hc] at h; exact absurd h (by simp)
    | some p =>
      rw [hc] at h
      cases htail : lookup cs with
      | none => rw [← lookup, htail] at h; exact absurd h (by simp)
      | some ps =>
        rw [← lookup, htail] at h
        have hxs : p :: ps = xs := Option.some.inj h
        obtain ⟨hp, hget, -⟩ := List.idxOf?_eq_some_iff.mp hc
        have halph : alph p = c := by
          rw [alph, List.getD_eq_getElem?_getD, List.getElem?_eq_getElem hp, Option.getD_some]
          exact hget
        obtain ⟨hcs, hps⟩ := ih htail
        subst hxs
        refine ⟨by rw [List.map_cons, halph, ← hcs], fun x hx => ?_⟩
        rcases List.mem_cons.mp hx with rfl | hx
        · exact hp
        · exact hps x hx

/-- The loop of the decoder looks up and converts. -/
theorem decode_loop (cs : List Char) : ∀ buf,
    cs.foldlM decodeStep buf = (lookup cs).bind fun xs => convert 256 bufSize 58 buf xs := by
  induction cs with
  | nil => exact fun _ => rfl
  | cons c cs ih =>
    intro buf
    rw [List.foldlM_cons, lookup, List.mapM_cons, ← lookup]
    cases hc : ALPH.idxOf? c with
    | none => simp [decodeStep, hc]
    | some p =>
      have hstep : decodeStep buf c = mulAdd 256 bufSize 58 buf p := by rw [decodeStep, hc]; rfl
      rw [hstep]
      cases hrow : mulAdd 256 bufSize 58 buf p with
      | none =>
        cases lookup cs with
        | none => rfl
        | some ps => simp [convert, List.foldlM_cons, hrow]
      | some row =>
        show cs.foldlM decodeStep row = _
        rw [ih row]
        cases lookup cs with
        | none => rfl
        | some ps => simp [convert, List.foldlM_cons, hrow]

/-- What is left of the buffer when the zeros on top are gone. -/
theorem trim_digits (v : Nat) : trim (Nat.digits 256 v) = Nat.digits 256 v := by
  rw [trim, ← List.reverse_inj, List.reverse_reverse]
  cases hrev : (Nat.digits 256 v).reverse with
  | nil => rfl
  | cons d ds =>
    have hd : d ≠ 0 := top_digit_ne_zero 256 (v := v) (by rw [hrev, List.head?_cons])
    rw [List.dropWhile_cons_of_neg (by simpa using hd)]

/-- **The buffer at the end of a numeral** that does not start with a zero. -/
theorem decode_numeral {xs : List Nat} (hlt : ∀ x ∈ xs, x < 58)
    (hhead : ∀ x, xs.head? = some x → x ≠ 0) :
    (convert 256 bufSize 58 [0] xs).map trim =
      if (Nat.digits 256 (horner 58 0 xs)).length ≤ bufSize
      then some (Nat.digits 256 (horner 58 0 xs)) else none := by
  cases xs with
  | nil => rfl
  | cons x xs =>
    -- the first digit replaces the zero
    have hx := mulAdd_first x (hlt x List.mem_cons_self) (hhead x rfl)
    have hempty : (Nat.digits 256 0).length ≤ bufSize := by simp
    have hconvert := convert_digits (by norm_num) (show 0 < 58 by norm_num) (x :: xs) 0 hempty
    rw [convert, List.foldlM_cons, ← hx, ← List.foldlM_cons] at hconvert
    rw [convert, hconvert]
    split
    · rw [Option.map_some, trim_digits]
    · rfl

/-- The ones in front of a string. -/
def ones (s : List Char) : Nat := (s.takeWhile (· == '1')).length

/-- The numeral behind them. -/
def numeral (s : List Char) : List Char := s.drop (ones s)

/-- The value of a numeral. -/
def value (xs : List Nat) : Nat := horner 58 0 xs

/-- A string is its ones and its numeral. -/
theorem ones_append_numeral (s : List Char) : List.replicate (ones s) '1' ++ numeral s = s := by
  have hones : s.takeWhile (· == '1') = List.replicate (ones s) '1' :=
    List.eq_replicate_iff.mpr ⟨rfl, fun b hb => by
      simpa using List.all_eq_true.mp (List.all_takeWhile (l := s)) b hb⟩
  rw [numeral, ones, drop_length_takeWhile, ← ones, ← hones, List.takeWhile_append_dropWhile]

/-- A numeral does not start with a zero. -/
theorem head_numeral {s : List Char} {xs : List Nat} (h : lookup (numeral s) = some xs) :
    ∀ x, xs.head? = some x → x ≠ 0 := by
  intro x hx h0
  have hchars := (lookup_eq_some h).1
  have hfirst := List.head?_dropWhile_not (· == '1') s
  rw [← drop_length_takeWhile, ← ones, ← numeral, hchars, List.head?_map, hx, h0] at hfirst
  exact absurd (show (alph 0 == '1') = false from hfirst) (by decide)

/-- **What `b58_decode` reads**, of any string. -/
theorem b58Decode_eq (s : List Char) (outLen : Nat) : b58Decode s outLen =
    if outLen = 0 ∨ outLen > 64 then none
    else (lookup (numeral s)).bind fun xs =>
      if ones s + (Nat.digits 256 (value xs)).length > outLen then none
      else some (List.replicate (outLen - (Nat.digits 256 (value xs)).length) 0 ++
        (Nat.digits 256 (value xs)).reverse.map UInt8.ofNat) := by
  rw [b58Decode]
  split
  · rfl
  · rename_i hlen
    show ((numeral s).foldlM decodeStep [0]).bind (fun buf =>
      if ones s + (trim buf).length > outLen then none
      else some (List.replicate (outLen - (trim buf).length) 0 ++
        (trim buf).reverse.map UInt8.ofNat)) = _
    rw [decode_loop]
    cases hxs : lookup (numeral s) with
    | none => rfl
    | some xs =>
      have hbuf := decode_numeral (lookup_eq_some hxs).2 (head_numeral hxs)
      rw [← value] at hbuf
      rw [Option.bind_some, Option.bind_some]
      have hcap : bufSize = 128 := rfl
      by_cases hfit : (Nat.digits 256 (value xs)).length ≤ bufSize
      · rw [if_pos hfit] at hbuf
        obtain ⟨buf, hconvert, htrim⟩ := Option.map_eq_some_iff.mp hbuf
        rw [hconvert, Option.bind_some, htrim]
      · -- a number that overruns the buffer is longer than any key
        rw [if_neg hfit, Option.map_eq_none_iff] at hbuf
        rw [hbuf, if_pos (by omega)]
        rfl

/-! ## §6. There and back. -/

theorem digit_lt (bytes : List UInt8) :
    ∀ x ∈ (Nat.digits 58 (number bytes)).reverse, x < 58 := fun _ hx =>
  Nat.digits_lt_base (by norm_num) (List.mem_reverse.mp hx)

/-- The `1`s of a text are the zeros of its key. -/
theorem ones_text (bytes : List UInt8) : ones (text bytes) = zeros bytes := by
  have hones : ∀ c ∈ List.replicate (zeros bytes) '1', (c == '1') = true := fun c hc => by
    rw [List.eq_of_mem_replicate hc]
    rfl
  have hnone : ((Nat.digits 58 (number bytes)).reverse.map alph).takeWhile (· == '1') = [] := by
    cases hrev : (Nat.digits 58 (number bytes)).reverse with
    | nil => rfl
    | cons d ds =>
      have hd : d ≠ 0 := top_digit_ne_zero 58 (v := number bytes) (by rw [hrev, List.head?_cons])
      have hlt : d < 58 := digit_lt bytes d (by rw [hrev]; exact List.mem_cons_self)
      rw [List.map_cons, List.takeWhile_cons_of_neg (by simp [alph_ne_one d hlt hd])]
  rw [ones, text, List.takeWhile_append_of_pos hones, hnone, List.append_nil, List.length_replicate]

/-- Behind the ones stands the numeral of the key. -/
theorem numeral_text (bytes : List UInt8) :
    numeral (text bytes) = (Nat.digits 58 (number bytes)).reverse.map alph := by
  rw [numeral, ones_text, text]
  exact List.drop_left' List.length_replicate

/-- **A text is read as its key.** -/
theorem b58Decode_text {bytes : List UInt8} (hpos : 1 ≤ bytes.length) (hlen : bytes.length ≤ 64) :
    b58Decode (text bytes) bytes.length = some bytes := by
  have hsig := zeros_add_length bytes
  have hdigits := digits_number bytes
  have hvalue : value (Nat.digits 58 (number bytes)).reverse = number bytes := horner_digits 58 _
  have hcount : (Nat.digits 256 (number bytes)).length = (significant bytes).length := by
    rw [hdigits, List.length_reverse, List.length_map]
  rw [b58Decode_eq, if_neg (by omega), numeral_text, lookup_map_alph (digit_lt bytes), ones_text,
    Option.bind_some, hvalue, if_neg (by omega), hcount, hdigits, List.reverse_reverse,
    List.map_map]
  -- the bytes that count go to the end, zeros before them
  have hbytes : (significant bytes).map (UInt8.ofNat ∘ UInt8.toNat) = significant bytes := by
    conv_rhs => rw [← List.map_id (significant bytes)]
    exact List.map_congr_left fun b _ => UInt8.ofNat_toNat
  rw [hbytes, show bytes.length - (significant bytes).length = zeros bytes by omega,
    zeros_append_significant]

/-- **Every key reads back.**  There is one text for it; the encoder writes it
wherever it has room, and the decoder returns the key. -/
theorem b58_roundTrip (bytes : List UInt8) (hpos : 1 ≤ bytes.length) (hlen : bytes.length ≤ 64) :
    ∃ s : List Char, s.length ≤ 88 ∧
      (∀ outCap, b58Encode bytes outCap = if s.length + 1 > outCap then none else some s) ∧
      b58Decode s bytes.length = some bytes :=
  ⟨text bytes, length_text_le hlen, b58Encode_eq hpos hlen, b58Decode_text hpos hlen⟩

theorem b58_roundTrip_demo : ∃ s : List Char, s.length ≤ 88 ∧
    (∀ outCap, b58Encode [0, 0, 7, 255] outCap = if s.length + 1 > outCap then none else some s) ∧
    b58Decode s 4 = some [0, 0, 7, 255] :=
  b58_roundTrip [0, 0, 7, 255] (by decide) (by decide)

end ShredArb.B58
