/-
  ShredArb.Hops.Program — the on-chain hop dispatcher
  (`arb-exec/program_hops/src/lib.rs`).

  `process` decodes a chain of two or three hops, calls one venue per hop and
  passes on what the hop's output account GAINED.  The venues are outside: a
  call is an instruction handed to `invoke`, which may refuse it or change the
  token balances.

  Conventions:
    • an account is its key and signer flag; token balances live in a `World`,
      so two accounts with one key share a balance,
    • an account that is no token account (or cannot be borrowed) has none,
    • an `err` code is the value of `Except.error`.
-/
import ShredArb.Univ.Kernel
import ShredArb.Lib.Bytes

namespace ShredArb.Hops

open ShredArb.Univ ShredArb.Bytes

/-! ## §1. Accounts and calls. -/

/-- A public key. -/
abbrev Pubkey := Mint

/-- `AccountInfo`, as the program reads it. -/
structure AccountInfo where
  key : Pubkey
  isSigner : Bool
  deriving DecidableEq, Repr, Inhabited

/-- The token balances. -/
abbrev World := Pubkey → Option UInt64

structure AccountMeta where
  pubkey : Pubkey
  isWritable : Bool
  isSigner : Bool
  deriving DecidableEq, Repr

/-- `Instruction`. -/
structure Instruction where
  programId : Pubkey
  accounts : List AccountMeta
  data : List UInt8
  deriving DecidableEq, Repr

/-- What `slice_invoke` does with a call: `none` when the venue fails. -/
abbrev Invoke := Instruction → World → Option World

abbrev errIx : UInt32 := 1
abbrev errAccounts : UInt32 := 2
abbrev errSigner : UInt32 := 3
abbrev errDlmm : UInt32 := 4
abbrev errPump : UInt32 := 5
abbrev errProfit : UInt32 := 6
abbrev errToken : UInt32 := 7
abbrev errHop : UInt32 := 8

/-- `DISC`. -/
def disc : List UInt8 := [0x41, 0x52, 0x42, 0x48, 0x4f, 0x50, 0x53, 0x30]
def dlmmSwap2 : List UInt8 := [0x41, 0x4b, 0x3f, 0x4c, 0xeb, 0x5b, 0x5b, 0x88]
def pumpSell : List UInt8 := [0x33, 0xe6, 0x85, 0xa4, 0x01, 0x7f, 0x83, 0xad]
def pumpBuyExactQ : List UInt8 := [0xc6, 0x2e, 0x15, 0x52, 0xb4, 0xd9, 0xe8, 0x70]

abbrev accAuthority : Nat := 0
abbrev accUser0 : Nat := 1
abbrev accUser1 : Nat := 2
abbrev accUser2 : Nat := 3
abbrev accTokenProgram : Nat := 4
abbrev accToken2022 : Nat := 5
abbrev accMemo : Nat := 6
abbrev accDlmm : Nat := 7
abbrev accDlmmEvent : Nat := 8
abbrev sharedN : Nat := 9
abbrev pumpNSell : Nat := 24
abbrev pumpNBuy : Nat := 26
abbrev dlmmHopN : Nat := 10
abbrev ixLen : Nat := 40

/-- `acc[i]`; every index is checked against the length before. -/
def acct (acc : List AccountInfo) (i : Nat) : AccountInfo := acc.getD i default

/-- `tok_amt`. -/
def tokAmt (w : World) (a : AccountInfo) : Except UInt32 UInt64 :=
  match w a.key with
  | none => .error errToken
  | some amt => .ok amt

/-- `user_ata`. -/
def userAta (acc : List AccountInfo) (i : UInt8) : Except UInt32 AccountInfo :=
  if i = 0 then .ok (acct acc accUser0)
  else if i = 1 then .ok (acct acc accUser1)
  else if i = 2 then .ok (acct acc accUser2)
  else .error errIx

/-- `meta`. -/
def accountMeta (a : AccountInfo) (w s : Bool) : AccountMeta := ⟨a.key, w, s⟩

/-- `pump_writable_sell`. -/
def pumpWritableSell (i : Nat) : Bool := [0, 1, 5, 6, 7, 8, 10, 17, 23].contains i

/-- `pump_writable_buy`. -/
def pumpWritableBuy (i : Nat) : Bool := [0, 1, 5, 6, 7, 8, 10, 17, 19, 20, 25].contains i

/-! ## §2. The venue calls. -/

/-- The instruction of `cpi_dlmm`; the slice of a hop is pair, bitmap, vaults,
oracle, host, mints and bin arrays. -/
def dlmmIx (acc : List AccountInfo) (hop : Nat) (amountIn : UInt64)
    (userIn userOut : AccountInfo) : Instruction where
  programId := (acct acc accDlmm).key
  accounts :=
    [accountMeta (acct acc hop) true false,
     accountMeta (acct acc (hop + 1)) false false,
     accountMeta (acct acc (hop + 2)) true false,
     accountMeta (acct acc (hop + 3)) true false,
     accountMeta userIn true false,
     accountMeta userOut true false,
     accountMeta (acct acc (hop + 6)) false false,
     accountMeta (acct acc (hop + 7)) false false,
     accountMeta (acct acc (hop + 4)) true false,
     accountMeta (acct acc (hop + 5)) false false,
     accountMeta (acct acc accAuthority) true true,
     accountMeta (acct acc accToken2022) false false,
     accountMeta (acct acc accTokenProgram) false false,
     accountMeta (acct acc accMemo) false false,
     accountMeta (acct acc accDlmmEvent) false false,
     accountMeta (acct acc accDlmm) false false,
     accountMeta (acct acc (hop + 8)) true false,
     accountMeta (acct acc (hop + 9)) true false]
  data := dlmmSwap2 ++ u64le amountIn ++ List.replicate 12 0

/-- A Pump instruction over the `n` accounts of a hop; the authority signs
wherever it stands. -/
def pumpIx (acc : List AccountInfo) (hop n : Nat) (writable : Nat → Bool) (data : List UInt8) :
    Instruction where
  programId := (acct acc (hop + 16)).key
  accounts := (List.range n).map fun i =>
    accountMeta (acct acc (hop + i)) (writable i)
      ((acct acc (hop + i)).key == (acct acc accAuthority).key)
  data := data

/-- The instruction of `cpi_pump_sell`. -/
def pumpSellIx (acc : List AccountInfo) (hop : Nat) (amountIn : UInt64) : Instruction :=
  pumpIx acc hop pumpNSell pumpWritableSell (pumpSell ++ u64le amountIn ++ List.replicate 8 0)

/-- The instruction of `cpi_pump_buy`. -/
def pumpBuyIx (acc : List AccountInfo) (hop : Nat) (amountIn : UInt64) : Instruction :=
  pumpIx acc hop pumpNBuy pumpWritableBuy (pumpBuyExactQ ++ u64le amountIn ++ u64le 1)

/-- The call a hop makes, with the code a failing venue gives. -/
def hopCall (acc : List AccountInfo) (off : Nat) (proto : UInt8) (n : Nat) (amount : UInt64)
    (userIn userOut : AccountInfo) : Except UInt32 (Instruction × UInt32) :=
  if proto = protoDlmm then
    if n ≠ dlmmHopN then .error errHop
    else if off + dlmmHopN > acc.length then .error errAccounts
    else .ok (dlmmIx acc off amount userIn userOut, errDlmm)
  else if proto = protoPump then
    if n = pumpNBuy then
      if off + pumpNBuy > acc.length then .error errAccounts
      else .ok (pumpBuyIx acc off amount, errPump)
    else if n = pumpNSell then
      if off + pumpNSell > acc.length then .error errAccounts
      else .ok (pumpSellIx acc off amount, errPump)
    else .error errHop
  else .error errHop

/-! ## §3. The loop. -/

/-- The variables of the loop and the balances. -/
structure HopState where
  amount : UInt64
  off : Nat
  world : World

/-- `data[i]`, within the 40 bytes. -/
def byteAt (data : List UInt8) (i : Nat) : UInt8 := data.getD i 0

def hopProto (data : List UInt8) (i : Nat) : UInt8 := byteAt data (25 + i * 3)
def hopIn (data : List UInt8) (i : Nat) : UInt8 := byteAt data (26 + i * 3)
def hopOut (data : List UInt8) (i : Nat) : UInt8 := byteAt data (27 + i * 3)
def hopN (data : List UInt8) (i : Nat) : Nat := (byteAt data (34 + i)).toNat

/-- `saturating_sub`. -/
def satSub (a b : UInt64) : UInt64 := if a < b then 0 else a - b

/-- One turn of the loop. -/
def hopStep (invoke : Invoke) (acc : List AccountInfo) (data : List UInt8) (s : HopState)
    (i : Nat) : Except UInt32 HopState :=
  if s.off + hopN data i > acc.length then .error errAccounts
  else do
    let userIn ← userAta acc (hopIn data i)
    let userOut ← userAta acc (hopOut data i)
    let before ← tokAmt s.world userOut
    let c ← hopCall acc s.off (hopProto data i) (hopN data i) s.amount userIn userOut
    match invoke c.1 s.world with
    | none => .error c.2
    | some w =>
      let after ← tokAmt w userOut
      if satSub after before = 0 then .error errHop
      else .ok ⟨satSub after before, s.off + hopN data i, w⟩

/-- `process`: the balances it leaves when it succeeds. -/
def process (invoke : Invoke) (acc : List AccountInfo) (data : List UInt8) (w : World) :
    Except UInt32 World :=
  if data.length ≠ ixLen ∨ data.take 8 ≠ disc then .error errIx
  else if acc.length < sharedN then .error errAccounts
  else if (acct acc accAuthority).isSigner = false then .error errSigner
  else
    let hopCount := (byteAt data 8).toNat
    let amount := loadU64 (field data 9 8)
    let minProfit := loadU64 (field data 17 8)
    if hopCount < 2 ∨ hopCount > 3 then .error errIx
    else if amount = 0 then .error errIx
    else do
      let q0 ← tokAmt w (acct acc accUser0)
      let s ← (List.range hopCount).foldlM (hopStep invoke acc data) ⟨amount, sharedN, w⟩
      let q1 ← tokAmt s.world (acct acc accUser0)
      if q1 < q0 ∨ q1 - q0 < minProfit then .error errProfit
      else .ok s.world

end ShredArb.Hops
