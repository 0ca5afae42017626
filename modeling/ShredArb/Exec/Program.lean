/-
  ShredArb.Exec.Program — the on-chain Route0 program
  (`arb-exec/program/src/lib.rs`).

  One DLMM swap and one Pump trade against each other, in the direction the
  data names.  The account list is a fixed vector with the Pump accounts at its
  end: the sell form takes 24 of them and the buy form 26.  The helpers the
  program shares with the hop dispatcher (`tok_amt`, `meta`, the writable sets,
  the Pump call over a slice) are those of `ShredArb.Hops.Program`.
-/
import ShredArb.Hops.Program

namespace ShredArb.Exec

open ShredArb.Univ ShredArb.Bytes ShredArb.Hops

/-! ## §1. The account vector. -/

/-- `DISC`. -/
def disc : List UInt8 := [0x41, 0x52, 0x42, 0x45, 0x58, 0x45, 0x43, 0x30]

abbrev token2022Idx : Nat := 35
abbrev pumpRemainOff : Nat := 36
abbrev accAuthority : Nat := 0
abbrev accUserQuote : Nat := 1
abbrev accUserBase : Nat := 2
abbrev accTokenProgram : Nat := 3
abbrev accMemo : Nat := 6
abbrev accDlmm : Nat := 7
abbrev accDlmmEvent : Nat := 8
abbrev accLbPair : Nat := 9
abbrev accBitmap : Nat := 10
abbrev accReserveX : Nat := 11
abbrev accReserveY : Nat := 12
abbrev accOracle : Nat := 13
abbrev accHostFee : Nat := 14
abbrev accMintX : Nat := 15
abbrev accMintY : Nat := 16
abbrev accBin0 : Nat := 17
abbrev accBin1 : Nat := 18

abbrev dirDlmmThenPump : UInt8 := 0

/-- The length of the data. -/
abbrev ixLen : Nat := 25

/-! ## §2. The venue calls. -/

/-- `slice_invoke(..).map_err(..)`. -/
def call (invoke : Invoke) (ix : Instruction) (e : UInt32) (w : World) : Except UInt32 World :=
  match invoke ix w with
  | none => .error e
  | some w' => .ok w'

/-- The instruction of `cpi_dlmm`. -/
def dlmmIx (acc : List AccountInfo) (amountIn : UInt64) (tokenInIsQuote : Bool) :
    Instruction where
  programId := (acct acc accDlmm).key
  accounts :=
    [accountMeta (acct acc accLbPair) true false,
     accountMeta (acct acc accBitmap) false false,
     accountMeta (acct acc accReserveX) true false,
     accountMeta (acct acc accReserveY) true false,
     accountMeta (acct acc (if tokenInIsQuote then accUserQuote else accUserBase)) true false,
     accountMeta (acct acc (if tokenInIsQuote then accUserBase else accUserQuote)) true false,
     accountMeta (acct acc accMintX) false false,
     accountMeta (acct acc accMintY) false false,
     accountMeta (acct acc accOracle) true false,
     accountMeta (acct acc accHostFee) false false,
     accountMeta (acct acc accAuthority) true true,
     accountMeta (acct acc token2022Idx) false false,
     accountMeta (acct acc accTokenProgram) false false,
     accountMeta (acct acc accMemo) false false,
     accountMeta (acct acc accDlmmEvent) false false,
     accountMeta (acct acc accDlmm) false false,
     accountMeta (acct acc accBin0) true false,
     accountMeta (acct acc accBin1) true false]
  data := dlmmSwap2 ++ u64le amountIn ++ List.replicate 12 0

/-- `cpi_dlmm`. -/
def cpiDlmm (invoke : Invoke) (acc : List AccountInfo) (amountIn : UInt64)
    (tokenInIsQuote : Bool) (w : World) : Except UInt32 World :=
  call invoke (dlmmIx acc amountIn tokenInIsQuote) errDlmm w

/-- `cpi_pump_sell`. -/
def cpiPumpSell (invoke : Invoke) (acc : List AccountInfo) (amountIn : UInt64) (w : World) :
    Except UInt32 World :=
  if acc.length < pumpRemainOff + pumpNSell then .error errAccounts
  else call invoke (pumpSellIx acc pumpRemainOff amountIn) errPump w

/-- `cpi_pump_buy`. -/
def cpiPumpBuy (invoke : Invoke) (acc : List AccountInfo) (amountIn : UInt64) (w : World) :
    Except UInt32 World :=
  if acc.length < pumpRemainOff + pumpNBuy then .error errAccounts
  else call invoke (pumpBuyIx acc pumpRemainOff amountIn) errPump w

/-! ## §3. The program. -/

/-- What the data says. -/
structure Route0Data where
  direction : UInt8
  amountIn : UInt64
  minProfit : UInt64
  deriving DecidableEq, Repr

/-- The fields of the data, `none` when it is not the program's. -/
def decodeData (data : List UInt8) : Option Route0Data :=
  if data.length ≠ ixLen ∨ data.take 8 ≠ disc then none
  else some ⟨byteAt data 8, loadU64 (field data 9 8), loadU64 (field data 17 8)⟩

/-- `process`: the balances it leaves when it succeeds. -/
def process (invoke : Invoke) (acc : List AccountInfo) (data : List UInt8) (w : World) :
    Except UInt32 World :=
  match decodeData data with
  | none => .error errIx
  | some d =>
    if acc.length < pumpRemainOff + pumpNSell then .error errAccounts
    else if (acct acc accAuthority).isSigner = false then .error errSigner
    else if d.direction > 1 ∨ d.amountIn = 0 then .error errIx
    else do
      let q0 ← tokAmt w (acct acc accUserQuote)
      let b0 ← tokAmt w (acct acc accUserBase)
      let w2 ←
        if d.direction = dirDlmmThenPump then do
          let w1 ← cpiDlmm invoke acc d.amountIn true w
          let b1 ← tokAmt w1 (acct acc accUserBase)
          if satSub b1 b0 = 0 then .error errDlmm
          else cpiPumpSell invoke acc (satSub b1 b0) w1
        else if acc.length < pumpRemainOff + pumpNBuy then .error errAccounts
        else do
          let w1 ← cpiPumpBuy invoke acc d.amountIn w
          let b1 ← tokAmt w1 (acct acc accUserBase)
          if satSub b1 b0 = 0 then .error errPump
          else cpiDlmm invoke acc (satSub b1 b0) false w1
      let q1 ← tokAmt w2 (acct acc accUserQuote)
      if q1 < q0 ∨ q1 - q0 < d.minProfit then .error errProfit
      else .ok w2

end ShredArb.Exec
