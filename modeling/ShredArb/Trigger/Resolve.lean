/-
  ShredArb.Trigger.Resolve — what EXACT certifies
  (`trigger_eval_at`, `trigger_admit_at` of `arb-core/src/trigger.c`).

  `resolve_loaded` walks the message a second time, by offsets.  The frame has
  read the same bytes, so the walk meets the frame's own instructions and
  tables, and the loop over the tables leaves either a refusal or the addresses
  of every one of them.

  Main results:
    * `resolveLoaded_resolved` — keys that are loaded are the static ones, all
      writable ones and all read-only ones, every table cached and valid,
    * `trigger_exact_certifies` — so are the keys behind EXACT, and an admitted
      transaction is the whole buffer under the expected signature.
-/
import ShredArb.Trigger.Eval

namespace ShredArb.Trigger

open ShredArb.Univ ShredArb.Bytes ShredArb.Tx ShredArb.Alt ShredArb.Scan ShredArb.Framing

/-! ## §1. The walk and the frame. -/

/-- A length read by offset is the one the frame has read. -/
theorem cu16_of_avail {p : List UInt8} {off avail v used : Nat} (hoff : off ≤ p.length)
    (h : cu16Avail p off avail = some (v, used)) : Framing.cu16 p off = .ok v (off + used) := by
  have hdec := cu16Avail_dec h
  have hused : off + used ≤ p.length := by
    obtain ⟨⟨v', rest⟩, -, heq⟩ := Option.map_eq_some_iff.mp h
    obtain ⟨-, rfl⟩ := Prod.mk.inj heq
    have hlen : (field p off avail).length ≤ p.length - off := by
      rw [field, List.length_take, List.length_drop]
      exact Nat.min_le_right _ _
    omega
  rw [same_cu16 p off hoff] at hdec
  cases hscan : Framing.cu16 p off with
  | need =>
    rw [hscan] at hdec
    exact absurd hdec (by simp [Res.parsed])
  | bad =>
    rw [hscan] at hdec
    exact absurd hdec (by simp [Res.parsed])
  | ok v' o =>
    rw [hscan] at hdec
    obtain ⟨rfl, hdrop⟩ := Prod.mk.inj (Option.some.inj hdec)
    have hin := stable_cu16.within hoff hscan
    have hlen := congrArg List.length hdrop
    rw [List.length_drop, List.length_drop] at hlen
    obtain rfl : o = off + used := by omega
    rfl

/-- Two readings of one length agree. -/
theorem cu16At_eq {p : List UInt8} {off avail v used v' o : Nat} (hoff : off ≤ p.length)
    (h : cu16Avail p off avail = some (v, used)) (hscan : Framing.cu16 p off = .ok v' o) :
    v = v' ∧ off + used = o := Res.ok.inj ((cu16_of_avail hoff h).symm.trans hscan)

theorem key_eq_ok {p : List UInt8} {off o : Nat} {k : Mint} (h : Framing.key p off = .ok k o) :
    off + 32 ≤ p.length ∧ k = keyAt p off ∧ o = off + 32 := by
  obtain ⟨bs, o', hbs, h⟩ := andThen_eq_ok.mp h
  obtain ⟨hle, rfl, rfl⟩ := take_eq_ok.mp hbs
  obtain ⟨rfl, rfl⟩ := Res.ok.inj h
  exact ⟨hle, rfl, rfl⟩

/-- Keys one after another are the keys at their offsets. -/
theorem times_key : ∀ (n : Nat) {p : List UInt8} {off o : Nat} {keys : List Mint},
    times Framing.key n p off = .ok keys o → keys = staticKeys p off n ∧ o = off + 32 * n := by
  intro n
  induction n with
  | zero =>
    intro p off o keys h
    obtain ⟨rfl, rfl⟩ := Res.ok.inj h
    exact ⟨rfl, rfl⟩
  | succ n ih =>
    intro p off o keys h
    obtain ⟨k, o1, hk, h⟩ := andThen_eq_ok.mp h
    obtain ⟨-, rfl, rfl⟩ := key_eq_ok hk
    obtain ⟨ks, o2, hks, h⟩ := andThen_eq_ok.mp h
    obtain ⟨rfl, rfl⟩ := Res.ok.inj h
    obtain ⟨rfl, rfl⟩ := ih hks
    refine ⟨?_, by omega⟩
    unfold staticKeys
    rw [List.range_succ_eq_map, List.map_cons, List.map_map]
    refine congrArg₂ List.cons rfl (List.map_congr_left fun i _ => ?_)
    show keyAt p (off + 32 + 32 * i) = keyAt p (off + 32 * (i + 1))
    rw [show off + 32 + 32 * i = off + 32 * (i + 1) by omega]

/-- The instructions that are skipped are the frame's. -/
theorem skipIxs_eq {nkeys : Nat} : ∀ (n : Nat) {p : List UInt8} {off off' o : Nat}
    {ixs : List CompiledIx}, off ≤ p.length → skipIxs p n off = some off' →
    times (Framing.frameIx true nkeys) n p off = .ok ixs o → off' = o := by
  intro n
  induction n with
  | zero =>
    intro p off off' o ixs _ hskip h
    rw [← Option.some.inj hskip]
    exact (Res.ok.inj h).2
  | succ n ih =>
    intro p off off' o ixs hoff hskip h
    obtain ⟨ix, o1, hix, h⟩ := andThen_eq_ok.mp h
    have hin := (stable_frameIx true nkeys).within hoff hix
    obtain ⟨rest, o2, hrest, h⟩ := andThen_eq_ok.mp h
    obtain ⟨-, rfl⟩ := Res.ok.inj h
    unfold skipIxs at hskip
    split at hskip
    · exact absurd hskip (by simp)
    · obtain ⟨⟨nacct, used⟩, hread, hskip⟩ := Option.bind_eq_some_iff.mp hskip
      obtain ⟨⟨dlen, used'⟩, hread', hskip⟩ := Option.bind_eq_some_iff.mp hskip
      -- the frame's own reading of the instruction
      obtain ⟨prog, o3, hprog, hix⟩ := andThen_eq_ok.mp hix
      obtain ⟨-, rfl⟩ := byte_eq_ok.mp hprog
      have hin1 := stable_byte.within hoff hprog
      rw [if_neg (by simp)] at hix
      obtain ⟨nacct', o4, hnacct, hix⟩ := andThen_eq_ok.mp hix
      have hin2 := stable_cu16.within hin1 hnacct
      obtain ⟨rfl, rfl⟩ := cu16At_eq hin1 hread hnacct
      split at hix
      · exact absurd hix (by simp [bad])
      · obtain ⟨accounts, o5, hacc, hix⟩ := andThen_eq_ok.mp hix
        obtain ⟨hfit, -, rfl⟩ := take_eq_ok.mp hacc
        rw [if_neg (by simp)] at hix
        obtain ⟨dlen', o6, hdlen, hix⟩ := andThen_eq_ok.mp hix
        obtain ⟨rfl, rfl⟩ := cu16At_eq hfit hread' hdlen
        obtain ⟨data, o7, hdata, hix⟩ := andThen_eq_ok.mp hix
        obtain ⟨-, -, rfl⟩ := take_eq_ok.mp hdata
        obtain ⟨-, rfl⟩ := Res.ok.inj hix
        exact ih hin hskip hrest

theorem byteAt_of_getElem? {p : List UInt8} {i : Nat} {b : UInt8} (h : p[i]? = some b) :
    byteAt p i = b := by
  rw [byteAt, List.getD_eq_getElem?_getD, h, Option.getD_some]

theorem byte_byteAt {p : List UInt8} {off o : Nat} {b : UInt8} (h : Scan.byte p off = .ok b o) :
    b = byteAt p off ∧ off < p.length ∧ o = off + 1 := by
  obtain ⟨hb, rfl⟩ := byte_eq_ok.mp h
  exact ⟨(byteAt_of_getElem? hb).symm, (List.getElem?_eq_some_iff.mp hb).1, rfl⟩

theorem length_staticKeys (p : List UInt8) (off n : Nat) : (staticKeys p off n).length = n := by
  rw [staticKeys, List.length_map, List.length_range]

/-- Where the parts of a framed legacy or v0 transaction stand: the number of
signers at the start, the message, the keys, the instructions, the tables. -/
structure FrameParts (p : List UInt8) (start : Nat) (f : FramedTx)
    (nsig msg keysOff ninstr ixOff lutOff o : Nat) : Prop where
  range : 1 ≤ nsig ∧ nsig ≤ txSigMax
  signers : Framing.cu16 p start = .ok nsig (start + 1)
  first : p[start]? = some (UInt8.ofNat nsig)
  version : frameVersion (UInt8.ofNat nsig) p (start + 1 + 64 * nsig) = .ok f.versioned msg
  msgIn : msg + 2 ≤ p.length
  header : headerOk (UInt8.ofNat nsig) (byteAt p msg) (byteAt p (msg + 1)) f.tx.keys.length = true
  count : Framing.cu16 p (msg + 2) = .ok f.tx.keys.length keysOff
  keys : f.tx.keys = staticKeys p keysOff f.tx.keys.length
  hashIn : keysOff + 32 * f.tx.keys.length + 32 ≤ p.length
  ixRange : 1 ≤ ninstr ∧ ninstr ≤ txInstrMax
  ixCount : Framing.cu16 p (keysOff + 32 * f.tx.keys.length + 32) = .ok ninstr ixOff
  ixIn : ixOff ≤ p.length
  ixs : times (Framing.frameIx f.versioned f.tx.keys.length) ninstr p ixOff = .ok f.tx.ixs lutOff
  lutIn : lutOff ≤ p.length
  luts : frameLuts f.versioned p lutOff = .ok f.tx.lookups o
  sigs : f.tx.sigs.length = nsig

theorem frameTx_parts {p : List UInt8} {start o : Nat} {f : FramedTx} (hoff : start ≤ p.length)
    (h : frameTx p start = .ok f o) :
    ∃ nsig msg keysOff ninstr ixOff lutOff,
      FrameParts p start f nsig msg keysOff ninstr ixOff lutOff o := by
  obtain ⟨nsig0, hlow, hhigh, hn0, hbyte, -, -⟩ := frameTx_sig0 hoff h
  obtain ⟨nsig, o1, hn, h⟩ := andThen_eq_ok.mp h
  obtain ⟨rfl, rfl⟩ := Res.ok.inj (hn.symm.trans hn0)
  split at h
  · exact absurd h (by simp [bad])
  · obtain ⟨sigs, o2, hsigs, h⟩ := andThen_eq_ok.mp h
    obtain ⟨versioned, msg, hv, h⟩ := andThen_eq_ok.mp h
    obtain ⟨tx, o4, htx, h⟩ := andThen_eq_ok.mp h
    obtain ⟨rfl, rfl⟩ := Res.ok.inj h
    have hin1 := stable_cu16.within hoff hn
    obtain ⟨rfl, hin2, hcount, -⟩ := times_signature nsig hin1 hsigs
    have hin3 := (stable_frameVersion _).within hin2 hv
    -- the message
    obtain ⟨ros, o5, hros, htx⟩ := andThen_eq_ok.mp htx
    obtain ⟨rfl, -, rfl⟩ := byte_byteAt hros
    obtain ⟨rou, o6, hrou, htx⟩ := andThen_eq_ok.mp htx
    obtain ⟨rfl, hin5, rfl⟩ := byte_byteAt hrou
    obtain ⟨nkeys, keysOff, hnk, htx⟩ := andThen_eq_ok.mp htx
    split at htx
    · exact absurd htx (by simp [bad])
    · rename_i hheader
      obtain ⟨keys, o7, hkeys, htx⟩ := andThen_eq_ok.mp htx
      obtain ⟨rfl, rfl⟩ := times_key nkeys hkeys
      obtain ⟨bh, o8, hbh, htx⟩ := andThen_eq_ok.mp htx
      obtain ⟨hin8, -, rfl⟩ := key_eq_ok hbh
      obtain ⟨ninstr, ixOff, hni, htx⟩ := andThen_eq_ok.mp htx
      have hin9 := stable_cu16.within hin8 hni
      split at htx
      · exact absurd htx (by simp [bad])
      · rename_i hrange
        obtain ⟨ixs, lutOff, hixs, htx⟩ := andThen_eq_ok.mp htx
        have hin10 := ((stable_frameIx versioned nkeys).times ninstr).within hin9 hixs
        obtain ⟨lookups, o9, hluts, htx⟩ := andThen_eq_ok.mp htx
        obtain ⟨rfl, rfl⟩ := Res.ok.inj htx
        have hlen := length_staticKeys p keysOff nkeys
        exact ⟨nsig, msg, keysOff, ninstr, ixOff, lutOff, {
          range := ⟨hlow, hhigh⟩
          signers := hn
          first := hbyte
          sigs := hcount
          version := hv
          msgIn := by omega
          header := by simpa only [hlen, Bool.not_eq_false] using hheader
          count := by simpa only [hlen] using hnk
          keys := by simp only [hlen]
          hashIn := by simpa only [hlen] using hin8
          ixRange := by omega
          ixCount := by simpa only [hlen] using hni
          ixIn := hin9
          ixs := by simpa only [hlen] using hixs
          lutIn := hin10
          luts := hluts }⟩

/-- Where the parts of a framed v0 transaction stand. -/
structure V0Layout (p : List UInt8) (start : Nat) (tx : V0Tx) (keysOff nlut lutOff o : Nat) : Prop where
  keysIn : keysOff ≤ p.length
  nsig : ∃ nsig, Framing.cu16 p start = .ok nsig (start + 1) ∧
    p[start + 1 + 64 * nsig]? = some 0x80 ∧ start + 1 + 64 * nsig + 4 ≤ p.length ∧
    Framing.cu16 p (start + 1 + 64 * nsig + 4) = .ok tx.keys.length keysOff
  keys : tx.keys = staticKeys p keysOff tx.keys.length
  ixs : ∃ ninstr oi oj, Framing.cu16 p (keysOff + 32 * tx.keys.length + 32) = .ok ninstr oi ∧
    times (Framing.frameIx true tx.keys.length) ninstr p oi = .ok tx.ixs oj ∧
    keysOff + 32 * tx.keys.length + 32 ≤ p.length ∧ oi ≤ p.length ∧ oj ≤ p.length ∧
    Framing.cu16 p oj = .ok nlut lutOff
  lutIn : lutOff ≤ p.length
  luts : times frameLut nlut p lutOff = .ok tx.lookups o

theorem frameTx_layout {p : List UInt8} {start o : Nat} {f : FramedTx} (hoff : start ≤ p.length)
    (h : frameTx p start = .ok f o) (hver : f.versioned = true) :
    ∃ keysOff nlut lutOff, V0Layout p start f.tx keysOff nlut lutOff o := by
  obtain ⟨nsig, msg, keysOff, ninstr, ixOff, lutsOff, hparts⟩ := frameTx_parts hoff h
  have hversion := hparts.version
  have hixs := hparts.ixs
  have hluts := hparts.luts
  rw [hver] at hversion hixs hluts
  obtain ⟨hbyte, -, rfl⟩ := frameVersion_true hversion
  rw [frameLuts, if_pos rfl] at hluts
  obtain ⟨nlut, lutOff, hnl, hluts⟩ := andThen_eq_ok.mp hluts
  have hcount := hparts.count
  split at hluts
  · exact absurd hluts (by simp [bad])
  · exact ⟨keysOff, nlut, lutOff, {
      keysIn := stable_cu16.within hparts.msgIn hcount
      nsig := ⟨nsig, hparts.signers, (byte_eq_ok.mp hbyte).1, hparts.msgIn, hcount⟩
      keys := hparts.keys
      ixs := ⟨ninstr, ixOff, lutsOff, hparts.ixCount, hixs, hparts.hashIn, hparts.ixIn, hparts.lutIn, hnl⟩
      lutIn := stable_cu16.within hparts.lutIn hnl
      luts := hluts }⟩

/-! ## §2. The tables. -/

/-- The cached addresses of a table, none when it is not cached. -/
def cachedAddrs (alts : AltCache) (pk : Mint) : List Mint := ((altCacheGet alts pk).1).getD []

/-- A lookup as the loop keeps it. -/
def viewOf (alts : AltCache) (l : Lookup) : LutView :=
  ⟨l.writable, l.readonly, cachedAddrs alts l.table⟩

/-- The fields of a hit that say which bytes it is about. -/
structure SameTx (a b : TriggerHit) : Prop where
  versioned : b.versioned = a.versioned
  txOff : b.txOff = a.txOff
  txEnd : b.txEnd = a.txEnd

theorem SameTx.refl (a : TriggerHit) : SameTx a a := ⟨rfl, rfl, rfl⟩

theorem SameTx.trans {a b c : TriggerHit} (h : SameTx a b) (h' : SameTx b c) : SameTx a c :=
  ⟨h'.versioned.trans h.versioned, h'.txOff.trans h.txOff, h'.txEnd.trans h.txEnd⟩

/-- What the loop over the tables has established of those behind it. -/
structure LutInv (alts : AltCache) (bank : Option AltBank) (before : TriggerHit)
    (past : List Lookup) (st : LutState) : Prop where
  entries : ∀ k, entry st.alts k = entry alts k
  luts : st.luts = past.map (viewOf alts)
  cached : st.missing = false → ∀ l ∈ past, (altCacheGet alts l.table).1.isSome = true
  valid : st.missing = false → st.uncertain = false →
    ∀ l ∈ past, lutStatus alts bank l.table (l.writable ++ l.readonly) = .valid
  noted : st.missing = true → st.out.altMiss = true
  same : SameTx before st.out

theorem forall_mem_snoc {α : Type} {P : α → Prop} {xs : List α} {x : α} (hxs : ∀ y ∈ xs, P y)
    (hx : P x) : ∀ y ∈ xs ++ [x], P y := by
  intro y hy
  rcases List.mem_append.mp hy with hy | hy
  · exact hxs y hy
  · rw [List.mem_singleton.mp hy]
    exact hx

section Tables

variable {alts : AltCache} {bank : Option AltBank} {before : TriggerHit} {past : List Lookup}
  {st : LutState}

/-- A table that is not cached. -/
theorem lutInv_miss (h : LutInv alts bank before past st) {l : Lookup} {off : Nat} {c : AltCache}
    (hc : ∀ k, entry c k = entry alts k) (hmiss : (altCacheGet alts l.table).1 = none) :
    LutInv alts bank before (past ++ [l])
      (LutState.miss { st with
        off := off, alts := c, luts := st.luts ++ [⟨l.writable, l.readonly, []⟩] } l.table) where
  entries := hc
  luts := by
    show st.luts ++ [_] = _
    rw [h.luts, List.map_append, List.map_singleton, viewOf, cachedAddrs, hmiss]
    rfl
  cached := fun hm => absurd hm (by simp [LutState.miss])
  valid := fun hm => absurd hm (by simp [LutState.miss])
  noted := by
    intro _
    show (if st.missing then st.out else _).altMiss = true
    split
    · rename_i hm
      exact h.noted hm
    · rfl
  same := by
    refine h.same.trans ?_
    show SameTx st.out (if st.missing then st.out else _)
    split
    · exact SameTx.refl _
    · exact ⟨rfl, rfl, rfl⟩

/-- A cached table. -/
theorem lutInv_note (h : LutInv alts bank before past st) {l : Lookup} {off : Nat} {c : AltCache}
    {addrs : List Mint} (hc : ∀ k, entry c k = entry alts k)
    (hget : (altCacheGet alts l.table).1 = some addrs) :
    LutInv alts bank before (past ++ [l])
      (LutState.note { st with
          off := off, alts := c, luts := st.luts ++ [⟨l.writable, l.readonly, addrs⟩] } l.table
        (lutStatus alts bank l.table (l.writable ++ l.readonly))) := by
  have hluts : st.luts ++ [⟨l.writable, l.readonly, addrs⟩] = (past ++ [l]).map (viewOf alts) := by
    rw [h.luts, List.map_append, List.map_singleton, viewOf, cachedAddrs, hget]
    rfl
  have hcached : st.missing = false →
      ∀ x ∈ past ++ [l], (altCacheGet alts x.table).1.isSome = true := fun hm =>
    forall_mem_snoc (h.cached hm) (by rw [hget]; rfl)
  unfold LutState.note
  split
  · -- the first table that is not valid
    exact ⟨hc, hluts, hcached, fun _ hu => absurd hu (by simp), h.noted, h.same.trans ⟨rfl, rfl, rfl⟩⟩
  · rename_i hok
    refine ⟨hc, hluts, hcached, fun hm hu => forall_mem_snoc (h.valid hm hu) ?_, h.noted, h.same⟩
    by_contra hne
    exact hok ⟨hne, hu⟩

/-- One table more. -/
theorem lutInv_step (h : LutInv alts bank before past st) (l : Lookup) (off : Nat) :
    LutInv alts bank before (past ++ [l]) (lutStep bank st l off) := by
  have hget : (altCacheGet st.alts l.table).1 = (altCacheGet alts l.table).1 :=
    get_eq_of_entry (h.entries l.table)
  have hentries : ∀ k, entry (altCacheGet st.alts l.table).2 k = entry alts k := fun k =>
    (altCacheGet_entry st.alts l.table k).trans (h.entries k)
  have hstatus : lutStatus (altCacheGet st.alts l.table).2 bank l.table (l.writable ++ l.readonly)
      = lutStatus alts bank l.table (l.writable ++ l.readonly) := by
    unfold lutStatus
    rw [check_eq_of_entry (hentries l.table)]
  unfold lutStep
  simp only [hstatus]
  cases hgot : (altCacheGet st.alts l.table).1 with
  | none => exact lutInv_miss h hentries (hget.symm.trans hgot)
  | some addrs => exact lutInv_note h hentries (hget.symm.trans hgot)

theorem lutStep_off (bank : Option AltBank) (st : LutState) (l : Lookup) (off : Nat) :
    (lutStep bank st l off).off = off := by
  unfold lutStep
  simp only
  cases (altCacheGet st.alts l.table).1 with
  | none => rfl
  | some addrs =>
    unfold LutState.note
    dsimp only
    split <;> rfl

/-- A table read by offset is the frame's. -/
theorem readLut_eq {p : List UInt8} {off off' o : Nat} {l l' : Lookup}
    (h : readLut p off = some (l', off')) (hlut : frameLut p off = .ok l o) : l' = l ∧ off' = o := by
  obtain ⟨k, o1, hk, hlut⟩ := andThen_eq_ok.mp hlut
  obtain ⟨hle1, rfl, rfl⟩ := key_eq_ok hk
  obtain ⟨nw, o2, hnw, hlut⟩ := andThen_eq_ok.mp hlut
  obtain ⟨w, o3, hw, hlut⟩ := andThen_eq_ok.mp hlut
  obtain ⟨hle3, rfl, rfl⟩ := take_eq_ok.mp hw
  obtain ⟨nr, o4, hnr, hlut⟩ := andThen_eq_ok.mp hlut
  obtain ⟨r, o5, hr, hlut⟩ := andThen_eq_ok.mp hlut
  obtain ⟨-, rfl, rfl⟩ := take_eq_ok.mp hr
  obtain ⟨rfl, rfl⟩ := Res.ok.inj hlut
  unfold readLut at h
  obtain ⟨-, h⟩ := Option.ite_none_left_eq_some.mp h
  obtain ⟨⟨nw', used⟩, hread, h⟩ := Option.bind_eq_some_iff.mp h
  obtain ⟨rfl, rfl⟩ := cu16At_eq hle1 hread hnw
  obtain ⟨-, h⟩ := Option.ite_none_left_eq_some.mp h
  obtain ⟨⟨nr', used'⟩, hread', h⟩ := Option.bind_eq_some_iff.mp h
  obtain ⟨rfl, rfl⟩ := cu16At_eq hle3 hread' hnr
  obtain ⟨-, h⟩ := Option.ite_none_left_eq_some.mp h
  obtain ⟨rfl, rfl⟩ := Prod.mk.inj (Option.some.inj h)
  exact ⟨rfl, rfl⟩

/-- **The loop over the tables** keeps what it knows of each. -/
theorem lutInv_loop {p : List UInt8} : ∀ (n : Nat) {past : List Lookup} {st st' : LutState} {o : Nat}
    {ls : List Lookup}, st.off ≤ p.length → LutInv alts bank before past st →
    times frameLut n p st.off = .ok ls o → lutLoop p bank n st = .ok st' →
    LutInv alts bank before (past ++ ls) st' := by
  intro n
  induction n with
  | zero =>
    intro past st st' o ls _ hinv htimes hloop
    obtain ⟨rfl, -⟩ := Res.ok.inj htimes
    obtain rfl : st = st' := Except.ok.inj hloop
    rwa [List.append_nil]
  | succ n ih =>
    intro past st st' o ls hoff hinv htimes hloop
    obtain ⟨l, o1, hl, htimes⟩ := andThen_eq_ok.mp htimes
    obtain ⟨rest, o2, hrest, htimes⟩ := andThen_eq_ok.mp htimes
    obtain ⟨rfl, rfl⟩ := Res.ok.inj htimes
    have hin := stable_frameLut.within hoff hl
    unfold lutLoop at hloop
    split at hloop
    · exact absurd hloop (by simp)
    · rename_i l' off' hread
      obtain ⟨rfl, rfl⟩ := readLut_eq hread hl
      have hoff' := lutStep_off bank st l' off'
      have hnext := ih (hoff'.symm ▸ hin) (lutInv_step hinv l' off') (hoff'.symm ▸ hrest) hloop
      rwa [List.append_assoc] at hnext

end Tables

/-! ## §3. The keys. -/

/-- What it takes to load the keys of a v0 transaction in a bank: every table
cached and valid, its indices below the active length, and the keys in the
order the chain loads them. -/
structure ResolvedKeys (alts : AltCache) (bank : Option AltBank) (tx : V0Tx) (keys : List Mint) :
    Prop where
  cached : ∀ l ∈ tx.lookups, ∃ addrs n, (altCacheGet alts l.table).1 = some addrs ∧
    altCacheCheck alts l.table bank = (.valid, n) ∧
    (∀ i ∈ l.writable, i.toNat < n) ∧ (∀ i ∈ l.readonly, i.toNat < n)
  order : tx.loaded (cachedAddrs alts) = some keys
  bound : keys.length ≤ trigLoadedMax

theorem mapM_length {α β : Type} {f : α → Option β} : ∀ {xs : List α} {ys : List β},
    xs.mapM f = some ys → ys.length = xs.length := by
  intro xs
  induction xs with
  | nil =>
    intro ys h
    rw [List.mapM_nil] at h
    rw [← Option.some.inj h]
    rfl
  | cons x xs ih =>
    intro ys h
    rw [List.mapM_cons] at h
    obtain ⟨y, -, h⟩ := Option.bind_eq_some_iff.mp h
    obtain ⟨zs, hzs, h⟩ := Option.bind_eq_some_iff.mp h
    rw [← Option.some.inj h, List.length_cons, List.length_cons, ih hzs]

/-- As many keys as indices. -/
theorem viewKeys_length {idx : LutView → List UInt8} : ∀ {vs : List LutView} {ks : List (List Mint)},
    vs.mapM (viewKeys idx) = some ks → ks.flatten.length = (vs.map fun v => (idx v).length).sum := by
  intro vs
  induction vs with
  | nil =>
    intro ks h
    rw [List.mapM_nil] at h
    rw [← Option.some.inj h]
    rfl
  | cons v vs ih =>
    intro ks h
    rw [List.mapM_cons] at h
    obtain ⟨k, hk, h⟩ := Option.bind_eq_some_iff.mp h
    obtain ⟨zs, hzs, h⟩ := Option.bind_eq_some_iff.mp h
    rw [← Option.some.inj h, List.flatten_cons, List.length_append, ih hzs, mapM_length hk,
      List.map_cons, List.sum_cons]

theorem lutStatus_valid {alts : AltCache} {bank : Option AltBank} {pk : Mint} {idx : List UInt8}
    (h : lutStatus alts bank pk idx = .valid) :
    ∃ n, altCacheCheck alts pk bank = (.valid, n) ∧ ∀ i ∈ idx, i.toNat < n := by
  unfold lutStatus at h
  simp only at h
  split at h
  · exact absurd h (by simp)
  · rename_i hidx
    refine ⟨(altCacheCheck alts pk bank).2, Prod.ext h rfl, fun i hi => ?_⟩
    by_contra hge
    refine hidx ⟨h, List.any_eq_true.mpr ⟨i, hi, ?_⟩⟩
    exact decide_eq_true (Nat.not_lt.mp hge)

theorem gather_resolved {alts : AltCache} {bank : Option AltBank} {before out : TriggerHit}
    {tx : V0Tx} {st : LutState} {keys : List Mint} (hinv : LutInv alts bank before tx.lookups st)
    (hstatic : tx.keys.length ≤ trigLoadedMax)
    (h : gather tx.keys st = (some (.loaded keys), out)) : ResolvedKeys alts bank tx keys := by
  unfold gather at h
  split at h
  · exact absurd (congrArg Prod.fst h) (by simp)
  · rename_i hmiss
    split at h
    · exact absurd (congrArg Prod.fst h) (by simp)
    · rename_i hunc
      split at h
      · exact absurd (congrArg Prod.fst h) (by simp)
      · rename_i hroom
        have hm := Bool.eq_false_of_not_eq_true hmiss
        have hu := Bool.eq_false_of_not_eq_true hunc
        obtain ⟨wr, hwr, hkeys⟩ := Option.bind_eq_some_iff.mp (congrArg Prod.fst h)
        obtain ⟨ro, hro, hkeys⟩ := Option.map_eq_some_iff.mp hkeys
        obtain rfl := Resolution.loaded.inj hkeys
        have hnw := viewKeys_length hwr
        have hnr := viewKeys_length hro
        refine ⟨fun l hl => ?_, ?_, ?_⟩
        · obtain ⟨addrs, haddrs⟩ := Option.isSome_iff_exists.mp (hinv.cached hm l hl)
          obtain ⟨n, hcheck, hidx⟩ := lutStatus_valid (hinv.valid hm hu l hl)
          exact ⟨addrs, n, haddrs, hcheck, fun i hi => hidx i (List.mem_append_left _ hi),
            fun i hi => hidx i (List.mem_append_right _ hi)⟩
        · have hload : ∀ idx : LutView → List UInt8, st.luts.mapM (viewKeys idx)
              = tx.lookups.mapM fun l => viewKeys idx (viewOf alts l) := by
            intro idx
            rw [hinv.luts, List.mapM_map]
            rfl
          rw [hload] at hwr hro
          unfold V0Tx.loaded
          simp only
          refine Option.bind_eq_some_iff.mpr ⟨wr, hwr, ?_⟩
          exact Option.map_eq_some_iff.mpr ⟨ro, hro, rfl⟩
        · rw [List.length_append, List.length_append, hnw, hnr]
          omega

/-- The keys are looked for where the frame has them. -/
theorem keysOffset_layout {p : List UInt8} {start keysOff keysOff' nlut lutOff o : Nat} {tx : V0Tx}
    {fh : FrameHit} (hoff : start ≤ p.length) (hver : fh.versioned = frameVerV0)
    (hlay : V0Layout p start tx keysOff nlut lutOff o)
    (h : keysOffset p start fh = some keysOff') : keysOff' = keysOff := by
  unfold keysOffset at h
  rw [if_neg (by rw [hver]; decide)] at h
  obtain ⟨⟨nsig', used⟩, hread, h⟩ := Option.bind_eq_some_iff.mp h
  obtain ⟨nsig, hnsig, hbyte, hin, hnkeys⟩ := hlay.nsig
  obtain ⟨rfl, hused⟩ := cu16At_eq hoff hread hnsig
  simp only [hused] at h
  have hv0 : byteAt p (start + 1 + 64 * nsig') = 0x80 := by
    rw [byteAt, List.getD_eq_getElem?_getD, hbyte, Option.getD_some]
  rw [hv0, if_pos (by decide)] at h
  obtain ⟨⟨nk, used'⟩, hread', rfl⟩ := Option.map_eq_some_iff.mp h
  exact (cu16At_eq hin hread' hnkeys).2

/-- The tables are looked for where the frame has them. -/
theorem findLuts_layout {p : List UInt8} {start keysOff nlut nlut' lutOff lutOff' o : Nat} {tx : V0Tx}
    (hlay : V0Layout p start tx keysOff nlut lutOff o)
    (h : findLuts p keysOff tx.keys.length = some (nlut', lutOff')) :
    nlut' = nlut ∧ lutOff' = lutOff := by
  obtain ⟨ninstr, oi, oj, hni, hixs, hin, hini, hinj, hnl⟩ := hlay.ixs
  unfold findLuts at h
  obtain ⟨⟨ninstr', used⟩, hread, h⟩ := Option.bind_eq_some_iff.mp h
  obtain ⟨rfl, hused⟩ := cu16At_eq hin hread hni
  simp only [hused] at h
  obtain ⟨off, hskip, h⟩ := Option.bind_eq_some_iff.mp h
  obtain rfl := skipIxs_eq ninstr' hini hskip hixs
  obtain ⟨⟨nl, used'⟩, hread', h⟩ := Option.map_eq_some_iff.mp h
  obtain ⟨rfl, rfl⟩ := Prod.mk.inj h
  exact cu16At_eq hinj hread' hnl

/-- **Loaded keys are resolved keys**, and a missing table is noted. -/
theorem resolveLoaded_resolved {p : List UInt8} {start keysOff nlut lutOff o : Nat} {tx : V0Tx}
    {alts alts' : AltCache} {bank : Option AltBank} {out out' : TriggerHit} {r : Resolution}
    (hlay : V0Layout p start tx keysOff nlut lutOff o)
    (h : resolveLoaded p keysOff tx.keys.length frameVerV0 alts bank out = (some r, alts', out')) :
    SameTx out out' ∧ (r = .missing → out'.altMiss = true) ∧
      ∀ keys, r = .loaded keys → ResolvedKeys alts bank tx keys := by
  unfold resolveLoaded at h
  simp only at h
  split at h
  · exact absurd (congrArg Prod.fst h) (by simp)
  · rename_i hmax
    rw [if_neg (by simp)] at h
    split at h
    · exact absurd (congrArg Prod.fst h) (by simp)
    · rename_i nlut' off' hfind
      obtain ⟨rfl, rfl⟩ := findLuts_layout hlay hfind
      split at h
      · exact absurd (congrArg Prod.fst h) (by simp)
      · split at h
        · exact absurd (congrArg Prod.fst h) (by simp)
        · rename_i st hloop
          have hinit : LutInv alts bank out []
              ⟨off', [], false, false, alts, { out with nlut := nlut' }⟩ :=
            ⟨fun _ => rfl, rfl, fun _ l hl => absurd hl (by simp), fun _ _ l hl => absurd hl (by simp),
              fun hm => absurd hm (by simp), ⟨rfl, rfl, rfl⟩⟩
          have hinv := lutInv_loop nlut' hlay.lutIn hinit hlay.luts hloop
          rw [List.nil_append] at hinv
          rw [← hlay.keys] at h
          obtain ⟨hr, hrest⟩ := Prod.mk.inj h
          obtain ⟨-, hout⟩ := Prod.mk.inj hrest
          refine ⟨?_, fun hmiss => ?_, fun keys hkeys => ?_⟩
          · rw [← hout]
            refine hinv.same.trans ?_
            unfold gather
            split
            · exact ⟨rfl, rfl, rfl⟩
            · split
              · exact SameTx.refl _
              · split <;> exact SameTx.refl _
          · rw [hmiss] at hr
            rw [← hout]
            unfold gather at hr ⊢
            split at hr
            · rename_i hm
              rw [if_pos hm]
              exact hinv.noted hm
            · split at hr
              · exact absurd hr (by simp)
              · split at hr
                · exact absurd hr (by simp)
                · obtain ⟨_, -, hr⟩ := Option.bind_eq_some_iff.mp hr
                  obtain ⟨_, -, hr⟩ := Option.map_eq_some_iff.mp hr
                  exact absurd hr (by simp)
          · rw [hkeys] at hr
            exact gather_resolved hinv (Nat.not_lt.mp hmax) (Prod.ext hr rfl)

/-- A hit of version 0 is one of a framed v0 transaction. -/
theorem frameTryAny_v0 {p : List UInt8} {start o : Nat} {fh : FrameHit}
    (h : Framing.frameTryAny p start = .ok fh o) (hver : fh.versioned = frameVerV0) :
    ∃ f, frameTx p start = .ok f o ∧ f.versioned = true ∧ fh = f.hit start o := by
  unfold Framing.frameTryAny frameTry at h
  split at h
  · obtain ⟨t, -, rfl, -⟩ := frameParseV1_eq_ok.mp h
    exact absurd hver (show frameVerV1 ≠ frameVerV0 by decide)
  · obtain ⟨f, hf, rfl, -⟩ := frameParse_eq_ok.mp h
    refine ⟨f, hf, ?_, rfl⟩
    by_contra hfalse
    have hleg : (f.hit start o).versioned = frameVerLegacy := if_neg hfalse
    exact absurd (hleg.symm.trans hver) (by decide)

/-- What `resolve_loaded` answers for a framed transaction of any version. -/
theorem resolveLoaded_some {p : List UInt8} {start keysOff o : Nat} {fh : FrameHit}
    {alts alts' : AltCache} {bank : Option AltBank} {out out' : TriggerHit} {r : Resolution}
    (hframe : Framing.frameTryAny p start = .ok fh o) (hkeys : keysOffset p start fh = some keysOff)
    (h : resolveLoaded p keysOff fh.nkeys fh.versioned alts bank out = (some r, alts', out')) :
    SameTx out out' ∧ (r = .missing → out'.altMiss = true) ∧
      (fh.versioned = frameVerV0 → ∀ keys, r = .loaded keys →
        ∃ tx, v0Tx (p.drop start) = some (tx, p.drop o) ∧ ResolvedKeys alts bank tx keys) := by
  have hoff := Nat.le_of_lt (frameTry_span hframe).1
  by_cases hver : fh.versioned = frameVerV0
  · obtain ⟨f, hf, hfv, rfl⟩ := frameTryAny_v0 hframe hver
    obtain ⟨ko, nlut, lutOff, hlay⟩ := frameTx_layout hoff hf hfv
    obtain rfl := keysOffset_layout hoff hver hlay hkeys
    rw [hver] at h
    obtain ⟨hsame, hmiss, hres⟩ := resolveLoaded_resolved hlay h
    exact ⟨hsame, hmiss, fun _ keys hr => ⟨f.tx, frameTx_v0Tx hoff hf hfv, hres keys hr⟩⟩
  · unfold resolveLoaded at h
    simp only [ne_eq, hver, not_false_eq_true, if_true] at h
    split at h
    · exact absurd (congrArg Prod.fst h) (by simp)
    · obtain ⟨hr, hrest⟩ := Prod.mk.inj h
      obtain ⟨-, rfl⟩ := Prod.mk.inj hrest
      refine ⟨SameTx.refl _, fun hmiss => ?_, fun hv => absurd hv hver⟩
      rw [hmiss] at hr
      exact absurd hr (by simp)

/-- The signature that is copied is the transaction's first. -/
theorem copySig0_first {p sig : List UInt8} {start o : Nat} {fh : FrameHit}
    (hframe : Framing.frameTryAny p start = .ok fh o) (h : copySig0 p start fh = some sig) :
    firstSig p start = some sig := by
  have hoff := Nat.le_of_lt (frameTry_span hframe).1
  unfold Framing.frameTryAny frameTry at hframe
  unfold copySig0 at h
  unfold firstSig
  split at hframe
  · rename_i hv1
    obtain ⟨t, ht, rfl, -⟩ := frameParseV1_eq_ok.mp hframe
    obtain ⟨-, -, -, -, hhead⟩ := frameV1_sig0 hoff ht
    have hver : (t.hit start o).versioned = frameVerV1 := rfl
    rw [if_pos hv1, ht]
    rw [if_pos hver] at h
    obtain ⟨-, h⟩ := Option.ite_none_left_eq_some.mp h
    obtain ⟨-, h⟩ := Option.ite_none_left_eq_some.mp h
    rw [← h]
    exact hhead
  · rename_i hv1
    obtain ⟨f, hf, rfl, -⟩ := frameParse_eq_ok.mp hframe
    obtain ⟨nsig, -, -, hn, -, -, hhead⟩ := frameTx_sig0 hoff hf
    have hnot : (f.hit start o).versioned ≠ frameVerV1 := by
      show (if f.versioned then frameVerV0 else frameVerLegacy) ≠ frameVerV1
      split <;> decide
    rw [if_neg hv1, hf]
    rw [if_neg hnot] at h
    obtain ⟨⟨nsig', used⟩, hread, h⟩ := Option.bind_eq_some_iff.mp h
    obtain ⟨-, h⟩ := Option.ite_none_left_eq_some.mp h
    rw [(cu16At_eq hoff hread hn).2] at h
    rw [← h]
    exact hhead

/-! ## §4. EXACT. -/

/-- A watched account changes what is said about them only. -/
theorem watchStep_eq (w : WatchIdx) (out : TriggerHit) (pk : Mint) :
    ∃ relevant hits, watchStep w out pk = { out with relevant := relevant, hits := hits } := by
  unfold watchStep
  cases watchGet w pk with
  | none => exact ⟨out.relevant, out.hits, rfl⟩
  | some e =>
    simp only [addHit]
    split
    · exact ⟨true, out.hits, rfl⟩
    · split
      · exact ⟨true, out.hits, rfl⟩
      · exact ⟨true, out.hits ++ [(e.poolIdx, e.protocol)], rfl⟩

theorem intersect_eq (w : WatchIdx) : ∀ (keys : List Mint) (out : TriggerHit),
    ∃ relevant hits, intersect w keys out = { out with relevant := relevant, hits := hits } := by
  intro keys
  induction keys with
  | nil => exact fun out => ⟨out.relevant, out.hits, rfl⟩
  | cons k keys ih =>
    intro out
    obtain ⟨r, hs, hstep⟩ := watchStep_eq w out k
    obtain ⟨r', hs', hrest⟩ := ih (watchStep w out k)
    refine ⟨r', hs', ?_⟩
    rw [intersect, List.foldl_cons]
    rw [intersect] at hrest
    rw [hrest, hstep]

section Exact

variable {sha256 : List UInt8 → Vector UInt8 32} {p : List UInt8} {start : Nat} {alts : AltCache}
  {watch : WatchIdx} {bank : Option AltBank}

/-- EXACT comes of a decode over the keys, with no table missing. -/
theorem evalKeys_exact {keysOff : Nat} {fh : FrameHit} {keys : List Mint} {out : TriggerHit}
    (h : (evalKeys sha256 p start keysOff fh watch keys out).klass = .exact) :
    out.altMiss = false ∧ ∃ s sig, decodeLoaded sha256 p start keysOff fh keys = some (s, sig) ∧
      (evalKeys sha256 p start keysOff fh watch keys out).exact = some s ∧
      (evalKeys sha256 p start keysOff fh watch keys out).sig = sig ∧
      (evalKeys sha256 p start keysOff fh watch keys out).nLoaded = keys.length ∧
      SameTx out (evalKeys sha256 p start keysOff fh watch keys out) := by
  obtain ⟨r, hs, hint⟩ := intersect_eq watch keys
    { out with nLoaded := keys.length, outer := keys.headD out.outer }
  unfold evalKeys at h ⊢
  simp only [hint] at h ⊢
  split at h
  · split at h
    · exact absurd h (by simp)
    · exact absurd h (by simp)
  · rename_i hrel
    rw [if_neg hrel]
    cases hmiss : out.altMiss with
    | true =>
      simp only [hmiss, if_true] at h
      exact absurd h (by simp)
    | false =>
      simp only [hmiss, Bool.false_eq_true, if_false] at h ⊢
      cases hdec : decodeLoaded sha256 p start keysOff fh keys with
      | none =>
        simp only [hdec] at h
        exact absurd h (by simp)
      | some sd =>
        exact ⟨trivial, sd.1, sd.2, rfl, rfl, rfl, rfl, rfl, rfl, rfl⟩

theorem decodeLoaded_sig {keysOff : Nat} {fh : FrameHit} {keys : List Mint} {s : SwapIx}
    {sig : List UInt8} (h : decodeLoaded sha256 p start keysOff fh keys = some (s, sig)) :
    copySig0 p start fh = some sig := by
  obtain ⟨_, -, h⟩ := Option.bind_eq_some_iff.mp h
  obtain ⟨sig', hsig, h⟩ := Option.bind_eq_some_iff.mp h
  split at h
  · rw [hsig, (Prod.mk.inj (Option.some.inj h)).2]
  · exact absurd h (by simp)

/-- What stands behind EXACT. -/
structure ExactBy (sha256 : List UInt8 → Vector UInt8 32) (p : List UInt8) (start : Nat)
    (alts : AltCache) (bank : Option AltBank) (out : TriggerHit) (fh : FrameHit) (keysOff : Nat)
    (keys : List Mint) (s : SwapIx) : Prop where
  frame : Framing.frameTryAny p start = .ok fh out.txEnd
  txOff : out.txOff = start
  versioned : out.versioned = fh.versioned
  decoded : decodeLoaded sha256 p start keysOff fh keys = some (s, out.sig)
  swap : out.exact = some s
  nLoaded : out.nLoaded = keys.length
  resolved : fh.versioned = frameVerV0 →
    ∃ tx, v0Tx (p.drop start) = some (tx, p.drop out.txEnd) ∧ ResolvedKeys alts bank tx keys

theorem framedHit_same (p : List UInt8) (start : Nat) (fh : FrameHit) :
    (framedHit p start fh).versioned = fh.versioned ∧ (framedHit p start fh).txOff = fh.txOff ∧
      (framedHit p start fh).txEnd = fh.txEnd := by
  unfold framedHit
  cases copySig0 p start fh with
  | none => exact ⟨rfl, rfl, rfl⟩
  | some sig => exact ⟨rfl, rfl, rfl⟩

/-- The keys of EXACT are loaded keys. -/
theorem evalResolved_exact {keysOff : Nat} {fh : FrameHit}
    {res : Option Resolution × AltCache × TriggerHit} (hmiss : res.1 = some .missing →
      res.2.2.altMiss = true)
    (h : (evalResolved sha256 p start keysOff fh watch res).1.klass = .exact) :
    ∃ keys, res.1 = some (.loaded keys) ∧ (evalResolved sha256 p start keysOff fh watch res).1
      = evalKeys sha256 p start keysOff fh watch keys res.2.2 := by
  obtain ⟨r, alts, out⟩ := res
  rcases r with _ | r
  · exact absurd h (by simp [evalResolved])
  · cases r with
    | loaded keys => exact ⟨keys, rfl, rfl⟩
    | missing =>
      have hexact := (evalKeys_exact h).1
      exact absurd (hexact.symm.trans (hmiss rfl)) (by simp)
    | uncertain => exact absurd h (by simp [evalResolved])

theorem triggerEvalAt_exact (h : (triggerEvalAt sha256 p start alts watch bank).1.klass = .exact) :
    ∃ fh keysOff keys s,
      ExactBy sha256 p start alts bank (triggerEvalAt sha256 p start alts watch bank).1 fh keysOff
        keys s := by
  unfold triggerEvalAt at h ⊢
  cases hframe : Framing.frameTryAny p start with
  | need =>
    rw [hframe] at h
    exact absurd h (by simp)
  | bad =>
    rw [hframe] at h
    exact absurd h (by simp)
  | ok fh o =>
    obtain ⟨-, hoff, rfl, -⟩ := frameTry_span hframe
    simp only [hframe] at h ⊢
    cases hkeys : keysOffset p start fh with
    | none =>
      simp only [hkeys] at h
      exact absurd h (by simp)
    | some keysOff =>
      simp only [hkeys] at h ⊢
      generalize hres : resolveLoaded p keysOff fh.nkeys fh.versioned alts bank
        (framedHit p start fh) = res at h ⊢
      obtain ⟨r, alts1, out1⟩ := res
      obtain ⟨keys, hr, heval⟩ := evalResolved_exact (fun hm => by
        simp only at hm
        rw [hm] at hres
        exact (resolveLoaded_some hframe hkeys hres).2.1 rfl) h
      simp only at hr
      rw [hr] at hres
      rw [heval] at h ⊢
      obtain ⟨hsame1, -, hresolved⟩ := resolveLoaded_some hframe hkeys hres
      obtain ⟨-, s, sig, hdec, hexact, rfl, hn, hsame2⟩ := evalKeys_exact h
      obtain ⟨hv, htx, he⟩ := framedHit_same p start fh
      have hsame := hsame1.trans hsame2
      have hend : (evalKeys sha256 p start keysOff fh watch keys out1).txEnd = fh.txEnd :=
        hsame.txEnd.trans he
      refine ⟨fh, keysOff, keys, s, ?_, hsame.txOff.trans (htx.trans hoff), hsame.versioned.trans hv,
        hdec, hexact, hn, fun hv0 => ?_⟩
      · rw [hend]
        exact hframe
      · rw [hend]
        exact hresolved hv0 keys rfl

/-- **EXACT certifies the keys it was decoded from.**  For a v0 transaction every
table it names was cached and valid in the bank, every index below the active
length, and the keys are the static ones, all tables' writable ones and all
tables' read-only ones, at most 256; an admitted transaction is moreover the
whole buffer, under the expected first signature. -/
theorem trigger_exact_certifies (sha256 : List UInt8 → Vector UInt8 32) (p : List UInt8)
    (alts : AltCache) (watch : WatchIdx) (bank : Option AltBank) :
    (∀ start, (triggerEvalAt sha256 p start alts watch bank).1.klass = .exact →
      (triggerEvalAt sha256 p start alts watch bank).1.versioned = frameVerV0 →
      ∃ tx keys keysOff fh s,
        v0Tx (p.drop start)
          = some (tx, p.drop (triggerEvalAt sha256 p start alts watch bank).1.txEnd) ∧
        ResolvedKeys alts bank tx keys ∧
        decodeLoaded sha256 p start keysOff fh keys
          = some (s, (triggerEvalAt sha256 p start alts watch bank).1.sig) ∧
        (triggerEvalAt sha256 p start alts watch bank).1.exact = some s ∧
        (triggerEvalAt sha256 p start alts watch bank).1.nLoaded = keys.length) ∧
    (∀ signature, (triggerAdmitAt sha256 p signature alts watch bank).1.klass = .exact →
      triggerAdmitAt sha256 p signature alts watch bank
          = triggerEvalAt sha256 p 0 alts watch bank ∧
        ∃ fh sig, Framing.frameTryAny p 0 = .ok fh p.length ∧ signature = some sig ∧
          firstSig p 0 = some sig.toList) := by
  refine ⟨fun start h hver => ?_, fun signature h => ?_⟩
  · obtain ⟨fh, keysOff, keys, s, hby⟩ := triggerEvalAt_exact h
    obtain ⟨tx, htx, hres⟩ := hby.resolved (hby.versioned.symm.trans hver)
    exact ⟨tx, keys, keysOff, fh, s, htx, hres, hby.decoded, hby.swap, hby.nLoaded⟩
  · unfold triggerAdmitAt at h ⊢
    simp only at h ⊢
    split at h
    · exact absurd h (by simp)
    · rename_i hpass
      rw [if_neg hpass]
      refine ⟨rfl, ?_⟩
      obtain ⟨hsig, hrest⟩ := not_or.mp hpass
      obtain ⟨-, hrest⟩ := not_or.mp hrest
      obtain ⟨hend, -⟩ := not_or.mp hrest
      obtain ⟨fh, keysOff, keys, s, hby⟩ := triggerEvalAt_exact h
      obtain ⟨sig, hsome, hlist⟩ := Option.map_eq_some_iff.mp (not_not.mp hsig)
      refine ⟨fh, sig, ?_, hsome, ?_⟩
      · rw [hby.frame, not_not.mp hend]
      · rw [hlist]
        exact copySig0_first hby.frame (decodeLoaded_sig hby.decoded)

end Exact

/-- A Pump sell of pool 77, which the message loads from table 9. -/
def sellTx : List UInt8 :=
  [1] ++ List.replicate 64 5 ++ [0x80, 1, 0, 1, 2] ++ keyBytes 3 ++ keyBytes progPump ++ keyBytes 4 ++
    [1] ++ [1, 1, 2, 24] ++ swapData pumpSellDisc 1000 1 ++ [1] ++ keyBytes 9 ++ [1, 0, 0]

/-- Table 9 as seen in slot 100. -/
def sellAlts : AltCache :=
  (altCachePutMeta altCacheInit 9 [77] ⟨100, 90, uint64Max, 0, 1, 0, 0x11, 0, 0, 0⟩ 7).getD
    altCacheInit

/-- The bank of slot 100. -/
def sellBank : AltBank := ⟨100, 0x11, [], false, true⟩

/-- Pool 77 is watched. -/
def sellWatch : WatchIdx :=
  ((Probe.Table.empty 8 none rfl : WatchIdx).store 77 (some ⟨77, protoPump, 1, 0⟩) rfl).getD
    (Probe.Table.empty 8 none rfl)

/-- The sell is exact, through its table, and admitted under its signature. -/
theorem trigger_exact_certifies_demo :
    ∃ tx keys, v0Tx (sellTx.drop 0) = some (tx, sellTx.drop 231) ∧
      ResolvedKeys sellAlts (some sellBank) tx keys ∧ keys.length = 3 ∧
      firstSig sellTx 0 = some (List.replicate 64 5) := by
  have hsound := trigger_exact_certifies (fun _ => Vector.replicate 32 0) sellTx sellAlts sellWatch
    (some sellBank)
  have hadmit : (triggerAdmitAt (fun _ => Vector.replicate 32 0) sellTx (some (Vector.replicate 64 5))
      sellAlts sellWatch (some sellBank)).1.klass = .exact := by decide +kernel
  obtain ⟨heval, fh, sig, -, hsig, hfirst⟩ := hsound.2 _ hadmit
  rw [heval] at hadmit
  have hver : (triggerEvalAt (fun _ => Vector.replicate 32 0) sellTx 0 sellAlts sellWatch
      (some sellBank)).1.versioned = frameVerV0 := by decide +kernel
  have hend : (triggerEvalAt (fun _ => Vector.replicate 32 0) sellTx 0 sellAlts sellWatch
      (some sellBank)).1.txEnd = 231 := by decide +kernel
  have hn : (triggerEvalAt (fun _ => Vector.replicate 32 0) sellTx 0 sellAlts sellWatch
      (some sellBank)).1.nLoaded = 3 := by decide +kernel
  obtain ⟨tx, keys, _, _, _, htx, hres, -, -, hlen⟩ := hsound.1 0 hadmit hver
  rw [hend] at htx
  refine ⟨tx, keys, htx, hres, hlen.symm.trans hn, ?_⟩
  rw [hfirst, ← Option.some.inj hsig]
  rfl

end ShredArb.Trigger
