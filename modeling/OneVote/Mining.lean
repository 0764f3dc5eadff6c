-- SUMMARY: Mining over whole runs is one search from the first magic on: which magic it finds, after how many passes, and that the first voter's key decides it.
import Mathlib.Order.Bounds.Basic
import OneVote.Assertions
import OneVote.VoteOrigins

/-!
# Mining

A pass of the mining loop tries `numMagicToTry` magics and goes on where the
last pass stopped, as long as the working block stays. So the passes together
find the first magic that hits the target, counted from a new block.
-/

namespace OneVote

open TransitionSystem (Move)

namespace Thread

/-- The magic of the try number `k` on a working block, counted from 0. -/
def tried (k : Nat) : UInt64 := UInt64.ofNat (k + 1)

/-- The tries that would hit the target, over the given leaf data. -/
def hits (SHA1 : Bytes → Digest) (data : Bytes) : Set Nat := {k | HitsTarget SHA1 data (tried k)}

/-- `n` magics were tried on the block, and none of them hit. -/
structure Searched (SHA1 : Bytes → Digest) (data : Bytes) (n : Nat) (b : Block) : Prop where
  magic : b.magic = UInt64.ofNat n
  missed : ∀ k < n, k ∉ hits SHA1 data

/-- The block has the magic and the hashes of the try `k`. -/
structure HashedAt (SHA1 : Bytes → Digest) (data : Bytes) (k : Nat) (b : Block) : Prop where
  magic : b.magic = tried k
  merkleRoot : b.merkleRoot = (Block.uniformRoot SHA1 data).ptr
  finhash : b.finhash = (SHA1 ((Block.uniformRoot SHA1 data).bytes ++
    Block.magicBytes (tried k))).ptr

/-- The block was hashed at the first try that hits, counted from a new block. -/
def HashedFirst (SHA1 : Bytes → Digest) (data : Bytes) (b : Block) : Prop :=
  ∃ k, IsLeast (hits SHA1 data) k ∧ HashedAt SHA1 data k b

/-- The move mined the block. -/
def MinesBlock (m : Move Thread (Input × List Effect)) (b : Block) : Prop :=
  m.label.1 = .mine ∧ .broadcastBlock b ∈ m.label.2

variable {SHA1 : Bytes → Digest} {data : Bytes}

theorem searched_zero {b : Block} (h : b.magic = 0) : Searched SHA1 data 0 b :=
  ⟨h, fun _ hk => absurd hk (Nat.not_lt_zero _)⟩

/-- There is only one first try. -/
theorem HashedFirst.unique {b c : Block} (hb : HashedFirst SHA1 data b)
    (hc : HashedFirst SHA1 data c) :
    b.magic = c.magic ∧ b.merkleRoot = c.merkleRoot ∧ b.finhash = c.finhash := by
  obtain ⟨k, hk, hbk⟩ := hb
  obtain ⟨j, hj, hcj⟩ := hc
  obtain rfl := hk.unique hj
  exact ⟨hbk.magic.trans hcj.magic.symm, hbk.merkleRoot.trans hcj.merkleRoot.symm,
    hbk.finhash.trans hcj.finhash.symm⟩

/-! ## One pass -/

/-- The loop over `tries` magics, from a block on which `n` were tried: it stops
at the first try that hits, or has tried `n + tries`. -/
theorem mineLoop_searched {tries n : Nat} {b w : Block} {found : Bool}
    (h : mineLoop SHA1 tries b = .ok (w, found)) (hdata : b.leafData = .ok data)
    (hs : Searched SHA1 data n b) :
    w.leafData = .ok data ∧
      (found = true → ∃ k, k < n + tries ∧ IsLeast (hits SHA1 data) k ∧ HashedAt SHA1 data k w) ∧
      (found = false → Searched SHA1 data (n + tries) w) := by
  induction tries generalizing b n with
  | zero =>
      obtain ⟨rfl, rfl⟩ := Prod.mk.inj (Except.ok.inj h)
      exact ⟨hdata, by simp, fun _ => hs⟩
  | succ tries ih =>
      rw [mineLoop] at h
      obtain ⟨b₁, hcalc, h⟩ := Except.bind_eq_ok.1 h
      obtain ⟨data', hdata', -, rfl⟩ := (Block.calculateFinhash_eq_ok SHA1).1 hcalc
      obtain rfl : data = data' := Except.ok.inj (hdata.symm.trans hdata')
      obtain ⟨lz, hlz, h⟩ := Except.bind_eq_ok.1 h
      have hmagic : b.magic + 1 = tried n := by
        rw [hs.magic, tried, UInt64.ofNat_add]
        rfl
      dsimp only at h hlz
      split at h
      · -- the tries before this one missed, so that it is the least that hits
        rename_i htarget
        obtain ⟨rfl, rfl⟩ := Prod.mk.inj (Except.pure_eq_ok.1 h)
        refine ⟨hdata, fun _ => ⟨n, by omega, ⟨?_, ?_⟩, ?_⟩, by simp⟩
        · exact ⟨lz, hmagic ▸ hlz, htarget⟩
        · intro k hk
          exact Nat.le_of_not_lt fun hlt => hs.missed k hlt hk
        · exact ⟨hmagic, rfl, by rw [← hmagic]⟩
      · rename_i htarget
        have hmiss : n ∉ hits SHA1 data := by
          rintro ⟨lz', hlz', htarget'⟩
          rw [← hmagic, hlz] at hlz'
          cases hlz'
          exact htarget htarget'
        have hnext := ih h hdata ⟨hmagic, fun k hk => ?_⟩
        · rwa [Nat.add_assoc, Nat.add_comm 1 tries] at hnext
        · rcases Nat.lt_succ_iff_lt_or_eq.1 hk with hlt | rfl
          · exact hs.missed k hlt
          · exact hmiss

/-- A pass either finds a block and puts it on the chain, or keeps the search. -/
theorem mine_eq_ok {th th' : Thread} {effects : List Effect}
    (h : th.mine SHA1 = .ok (th', effects)) :
    (∃ w, mineLoop SHA1 numMagicToTry th.newBlock = .ok (w, false) ∧ effects = [] ∧
        th' = { th with newBlock := w, point := .head }) ∨
      ∃ w head, mineLoop SHA1 numMagicToTry th.newBlock = .ok (w, true) ∧
        th.bc.getHeadBlock = .ok head ∧
        effects = [.broadcastBlock
          (Blockchain.numbered (minedBlock w head) (th.bc.chainLength + 1))] ∧
        th' = ⟨appended th.bc (minedBlock w head), .new, false, .head⟩ := by
  unfold Thread.mine at h
  obtain ⟨⟨w, found⟩, hloop, h⟩ := Except.bind_eq_ok.1 h
  cases found with
  | false =>
      cases h
      exact .inl ⟨w, hloop, rfl, rfl⟩
  | true =>
      obtain ⟨head, hhead, h⟩ := Except.bind_eq_ok.1 h
      obtain ⟨⟨bc, b'⟩, hadd, h⟩ := Except.bind_eq_ok.1 h
      obtain ⟨hpop, rfl, rfl⟩ := Blockchain.addBlock_eq_ok.1 hadd
      dsimp only at h
      split at h
      · cases h
      cases h
      exact .inr ⟨w, head, hloop, hhead, rfl, rfl⟩

/-! ## Runs -/

/-- The working block is new, or the search for its magic is under way. -/
structure Searching (SHA1 : Bytes → Digest) (th : Thread) : Prop where
  fresh : th.quotafull = false → th.newBlock.magic = 0
  searched : ∀ data, th.newBlock.leafData = .ok data → ∃ n, Searched SHA1 data n th.newBlock

theorem searching_of_magic {th : Thread} (h : th.newBlock.magic = 0) : th.Searching SHA1 :=
  ⟨fun _ => h, fun _ _ => ⟨0, searched_zero h⟩⟩

theorem Change.searching {th th' : Thread} {i : Input} {effects : List Effect}
    (hs : Change SHA1 th (i, effects) th') (hi : i ≠ .mine) (hw : th.WellFormed)
    (h : th.Searching SHA1) : th'.Searching SHA1 := by
  cases hs with
  | idle => exact ⟨h.fresh, h.searched⟩
  | ignored => exact ⟨h.fresh, h.searched⟩
  | discarded => exact ⟨h.fresh, h.searched⟩
  | accepted => exact searching_of_magic rfl
  | repaired => exact searching_of_magic rfl
  | taken hpoint _ hts hmem hset =>
      cases hts.symm.trans hw.filling.entries
      obtain ⟨-, -, -, hmagic⟩ := hw.filling.setEntry hmem hset
      exact searching_of_magic (hmagic.trans (h.fresh (hw.not_full hpoint)))
  | missed => exact absurd rfl hi
  | mined => exact absurd rfl hi

/-- A pass finds the first try that hits, or keeps the search. -/
theorem Searching.mine {th th' : Thread} {effects : List Effect} (h : th.Searching SHA1)
    (hw : th.WellFormed) (hpoint : th.point = .mine) (hmine : th.mine SHA1 = .ok (th', effects)) :
    th'.Searching SHA1 ∧ ∀ b, .broadcastBlock b ∈ effects →
      ∃ data, b.leafData = .ok data ∧ HashedFirst SHA1 data b := by
  rcases mine_eq_ok hmine with ⟨w, hloop, rfl, rfl⟩ | ⟨w, head, hloop, -, rfl, rfl⟩
  · obtain ⟨⟨magic, root, fin, hw'⟩, -⟩ := mineLoop_spec hloop
    refine ⟨⟨fun hquota => ?_, fun data hdata => ?_⟩, by simp⟩
    · have hfull : th.quotafull = true := hw.full hpoint
      exact absurd (hfull.symm.trans hquota) (by decide)
    · have hsame : th.newBlock.leafData = .ok data := by
        rw [hw'] at hdata
        exact hdata
      obtain ⟨n, hn⟩ := h.searched data hsame
      exact ⟨_, (mineLoop_searched hloop hsame hn).2.2 rfl⟩
  · refine ⟨searching_of_magic rfl, fun b hb => ?_⟩
    cases List.mem_singleton.1 hb
    obtain ⟨data, hdata⟩ := exists_leafData hloop
    obtain ⟨n, hn⟩ := h.searched data hdata
    obtain ⟨hleaf, hfound, -⟩ := mineLoop_searched hloop hdata hn
    obtain ⟨k, -, hleast, hash⟩ := hfound rfl
    exact ⟨data, hleaf, k, hleast, hash.magic, hash.merkleRoot, hash.finhash⟩

theorem Step.searching {th th' : Thread} {i : Input × List Effect} (hs : Step SHA1 th i th')
    (hw : th.WellFormed) (h : th.Searching SHA1) :
    th'.Searching SHA1 ∧ ∀ b, MinesBlock ⟨th, i, th'⟩ b →
      ∃ data, b.leafData = .ok data ∧ HashedFirst SHA1 data b := by
  cases hs with
  | mine hpoint hmine =>
      obtain ⟨hnext, hfirst⟩ := h.mine hw hpoint hmine
      exact ⟨hnext, fun b hb => hfirst b hb.2⟩
  | @idle env hpoint =>
      have hchange : Change SHA1 th (.block none env, []) _ := .idle hpoint
      exact ⟨hchange.searching (by simp) hw h, by simp [MinesBlock]⟩
  | block hpoint hhandle =>
      exact ⟨(Step.change_block hpoint hhandle).searching (by simp) hw h, by simp [MinesBlock]⟩
  | transaction hpoint htake =>
      exact ⟨(Step.change_transaction hpoint htake).searching (by simp) hw h,
        by simp [MinesBlock]⟩

theorem searching_invariant (SHA1 : Bytes → Digest) (tail : GenesisTail) :
    (processingThread SHA1 tail).Invariant fun th => th.WellFormed ∧ th.Searching SHA1 where
  init := by
    rintro th rfl
    exact ⟨initial_wellFormed tail, searching_of_magic rfl⟩
  step := fun _ _ _ hstep h => ⟨h.1.change hstep.change, (hstep.searching h.1 h.2).1⟩

theorem run_hashedFirst {tail : GenesisTail} {th : Thread}
    {tr : List (Move Thread (Input × List Effect))}
    (hrun : (processingThread SHA1 tail).Run (.initial tail) tr th) :
    ∀ m ∈ tr, ∀ b, MinesBlock m b → ∃ data, b.leafData = .ok data ∧ HashedFirst SHA1 data b := by
  intro m hm b hb
  have hmoves := (searching_invariant SHA1 tail).preserved.moves hrun
    ⟨initial_wellFormed tail, searching_of_magic rfl⟩ (by simp) m hm
  exact ((hrun.step_of_mem m hm).searching hmoves.1.1 hmoves.1.2).2 b hb

/-- Whatever the schedules, two mined blocks whose first voters' keys agree in
their first 20 bytes have the same magic, Merkle root and final hash: the first
try that hits decides them. -/
theorem mined_unique {tail tail' : GenesisTail} {th th' : Thread}
    {tr tr' : List (Move Thread (Input × List Effect))}
    (hrun : (processingThread SHA1 tail).Run (.initial tail) tr th)
    (hrun' : (processingThread SHA1 tail').Run (.initial tail') tr' th') :
    ∀ m ∈ tr, ∀ m' ∈ tr', ∀ b c, MinesBlock m b → MinesBlock m' c → b.leafData = c.leafData →
      ∃ data, b.leafData = .ok data ∧ HashedFirst SHA1 data b ∧ HashedFirst SHA1 data c ∧
        b.magic = c.magic ∧ b.merkleRoot = c.merkleRoot ∧ b.finhash = c.finhash := by
  intro m hm m' hm' b c hb hc hleaf
  obtain ⟨data, hdata, hfirst⟩ := run_hashedFirst hrun m hm b hb
  obtain ⟨data', hdata', hfirst'⟩ := run_hashedFirst hrun' m' hm' c hc
  obtain rfl : data = data' := Except.ok.inj (hdata.symm.trans (hleaf.trans hdata'))
  exact ⟨data, hdata, hfirst, hfirst', hfirst.unique hfirst'⟩

/-- A run that mines a first block of the given votes. -/
theorem exists_mined_run (tail : GenesisTail) {id : UInt8}
    (hnodup : ((sampleVotes id).map (·.senderPublicKey)).Nodup) :
    ∃ tr th m b, (processingThread Block.sampleSHA1 tail).Run (.initial tail) tr th ∧ m ∈ tr ∧
      MinesBlock m b ∧ b.votes = sampleVotes id ∧ b.leafData = .ok Block.sampleKey := by
  obtain ⟨tr, th, w, h⟩ := exists_mined_sample tail id hnodup
  have hleaf : w.leafData = .ok Block.sampleKey := by
    rw [h.populated.leafData h.votes_mined]
    rfl
  exact ⟨_, _, _, _, h.run.snoc h.step, List.mem_append_right _ (List.mem_singleton_self _),
    ⟨rfl, List.mem_singleton_self _⟩, h.votes_mined, hleaf⟩

/-- Two first blocks of different votes. -/
theorem mined_unique_first :
    ∃ b c : Block, b.votes = sampleVotes 1 ∧ c.votes = sampleVotes 50 ∧
      ∃ data, b.leafData = .ok data ∧ HashedFirst Block.sampleSHA1 data b ∧
        HashedFirst Block.sampleSHA1 data c ∧ b.magic = c.magic ∧ b.merkleRoot = c.merkleRoot ∧
        b.finhash = c.finhash := by
  obtain ⟨tr, th, m, b, hrun, hm, hb, hvotes, hleaf⟩ :=
    @exists_mined_run Blockchain.sampleTail 1 (by decide)
  obtain ⟨tr', th', m', c, hrun', hm', hc, hvotes', hleaf'⟩ :=
    @exists_mined_run Blockchain.sampleTail 50 (by decide)
  exact ⟨b, c, hvotes, hvotes',
    mined_unique hrun hrun' m hm m' hm' b c hb hc (hleaf.trans hleaf'.symm)⟩

/-! ## Passes -/

/-- No block arrives, and no transaction is asked for. -/
def Undisturbed (m : Move Thread (Input × List Effect)) : Prop :=
  m.label.1 = .mine ∨ ∃ env, m.label.1 = .block none env

/-- The passes of the mining loop in a run. -/
def minePasses (tr : List (Move Thread (Input × List Effect))) : Nat :=
  tr.countP fun m =>
    match m.label.1 with
    | .mine => true
    | _ => false

/-- The search goes on: nothing was mined, and `n` magics were tried. -/
structure GoesOn (SHA1 : Bytes → Digest) (data : Bytes) (bc : Blockchain) (n : Nat)
    (th : Thread) : Prop where
  wellFormed : th.WellFormed
  quotafull : th.quotafull = true
  chain : th.bc = bc
  leafData : th.newBlock.leafData = .ok data
  searched : Searched SHA1 data n th.newBlock

/-- The search is over: a block hashed at the first try that hits, the try `k`,
is on the chain. -/
structure IsOver (SHA1 : Bytes → Digest) (data : Bytes) (bc : Blockchain) (k : Nat)
    (th : Thread) : Prop where
  quotafull : th.quotafull = false
  point : th.point ≠ .mine
  least : IsLeast (hits SHA1 data) k
  chain : ∃ w, HashedAt SHA1 data k w ∧ th.bc = appended bc w

/-- A pass tries `numMagicToTry` magics more, or ends the search at the first try that hits. -/
theorem GoesOn.mine {bc : Blockchain} {n : Nat} {th th' : Thread} {effects : List Effect}
    (h : GoesOn SHA1 data bc n th) (hpoint : th.point = .mine)
    (hmine : th.mine SHA1 = .ok (th', effects)) :
    effects = [] ∧ th'.point = .head ∧ GoesOn SHA1 data bc (n + numMagicToTry) th' ∨
      (∃ b, .broadcastBlock b ∈ effects) ∧
        ∃ k, n ≤ k ∧ k < n + numMagicToTry ∧ IsOver SHA1 data bc k th' := by
  have hw := h.wellFormed.change (Step.change_mine hpoint hmine)
  rcases mine_eq_ok hmine with ⟨w, hloop, rfl, rfl⟩ | ⟨w, head, hloop, -, rfl, rfl⟩
  · obtain ⟨hleaf, -, hmissed⟩ := mineLoop_searched hloop h.leafData h.searched
    exact .inl ⟨rfl, rfl, hw, h.quotafull, h.chain, hleaf, hmissed rfl⟩
  · obtain ⟨-, hfound, -⟩ := mineLoop_searched hloop h.leafData h.searched
    obtain ⟨k, hk, hleast, hash⟩ := hfound rfl
    have hn : n ≤ k := Nat.le_of_not_lt fun hlt => h.searched.missed k hlt hleast.1
    refine .inr ⟨⟨_, List.mem_singleton_self _⟩, k, hn, hk, rfl, by simp, hleast,
      minedBlock w head, ?_, by rw [h.chain]⟩
    exact ⟨hash.magic, hash.merkleRoot, hash.finhash⟩

theorem GoesOn.idle {bc : Blockchain} {n : Nat} {th : Thread} (h : GoesOn SHA1 data bc n th) :
    GoesOn SHA1 data bc n { th with point := th.afterBlock } where
  wellFormed := h.wellFormed.at_afterBlock
  quotafull := h.quotafull
  chain := h.chain
  leafData := h.leafData
  searched := h.searched

theorem IsOver.step {bc : Blockchain} {k : Nat} {th th' : Thread} {i : Input × List Effect}
    (h : IsOver SHA1 data bc k th) (hs : Step SHA1 th i th') (hi : Undisturbed ⟨th, i, th'⟩) :
    minePasses [⟨th, i, th'⟩] = 0 ∧ IsOver SHA1 data bc k th' := by
  cases hs with
  | idle hpoint =>
      have hafter : th.afterBlock = .pop := by rw [afterBlock, h.quotafull]; rfl
      exact ⟨rfl, h.quotafull, by simp [hafter], h.least, h.chain⟩
  | mine hpoint => exact absurd hpoint h.point
  | block => simp [Undisturbed] at hi
  | transaction => simp [Undisturbed] at hi

theorem minePasses_append (tr tr' : List (Move Thread (Input × List Effect))) :
    minePasses (tr ++ tr') = minePasses tr + minePasses tr' := List.countP_append

/-- An undisturbed run from a search under way: each pass was `numMagicToTry`
tries more, or the search is over and a block was mined. -/
theorem GoesOn.run {tail : GenesisTail} {bc : Blockchain} {n : Nat} {th th' : Thread}
    {tr : List (Move Thread (Input × List Effect))} (h : GoesOn SHA1 data bc n th)
    (hrun : (processingThread SHA1 tail).Run th tr th') (hi : ∀ m ∈ tr, Undisturbed m) :
    ((∀ m ∈ tr, m.label.2 = []) ∧ GoesOn SHA1 data bc (n + numMagicToTry * minePasses tr) th') ∨
      (∃ m ∈ tr, ∃ b, MinesBlock m b) ∧
        ∃ k < n + numMagicToTry * minePasses tr, IsOver SHA1 data bc k th' := by
  induction hrun with
  | nil => exact .inl ⟨by simp, h⟩
  | @snoc t u tr i hrun hstep ih =>
      rw [List.forall_mem_append, List.forall_mem_singleton] at hi
      rcases ih hi.1 with ⟨hquiet, hon⟩ | ⟨⟨m, hm, hmines⟩, k, hlt, hover⟩
      · cases hstep with
        | idle hpoint =>
            refine .inl ⟨?_, ?_⟩
            · rw [List.forall_mem_append, List.forall_mem_singleton]
              exact ⟨hquiet, rfl⟩
            · rw [minePasses_append]
              exact hon.idle
        | @mine _ effects hpoint hmine =>
            have hone : minePasses (tr ++ [⟨t, (.mine, effects), u⟩]) = minePasses tr + 1 :=
              minePasses_append _ _
            rcases hon.mine hpoint hmine with ⟨rfl, -, hnext⟩ | ⟨⟨b, hb⟩, k, -, hlt, hover⟩
            · refine .inl ⟨?_, ?_⟩
              · rw [List.forall_mem_append, List.forall_mem_singleton]
                exact ⟨hquiet, rfl⟩
              · rwa [hone, Nat.mul_succ, ← Nat.add_assoc]
            · refine .inr ⟨⟨_, List.mem_append_right _ (List.mem_singleton_self _), b, rfl, hb⟩,
                k, ?_, hover⟩
              rwa [hone, Nat.mul_succ, ← Nat.add_assoc]
        | block => simp [Undisturbed] at hi
        | transaction => simp [Undisturbed] at hi
      · obtain ⟨hzero, hnext⟩ := hover.step hstep hi.2
        rw [minePasses_append, hzero, Nat.add_zero]
        exact .inr ⟨⟨m, List.mem_append_left _ hm, hmines⟩, k, hlt, hnext⟩

/-! ### The passes come to an end -/

theorem exists_mineLoop {b : Block} (hdata : b.leafData = .ok data)
    (hbyte : (Block.uniformRoot SHA1 data).bytes[0]? ≠ some 0) (tries : Nat) :
    ∃ w found, mineLoop SHA1 tries b = .ok (w, found) := by
  induction tries generalizing b with
  | zero => exact ⟨b, false, rfl⟩
  | succ tries ih =>
      have hcalc := (@Block.calculateFinhash_eq_ok SHA1 { b with magic := b.magic + 1 } _).2
        ⟨data, hdata, hbyte, rfl⟩
      obtain ⟨lz, hlz⟩ := exists_leadingZeros (SHA1 ((Block.uniformRoot SHA1 data).bytes ++
        Block.magicBytes (b.magic + 1)))
      rw [mineLoop, hcalc, Except.ok_bind]
      dsimp only
      rw [hlz, Except.ok_bind]
      split
      · exact ⟨_, true, rfl⟩
      · exact ih hdata

/-- A pass on a chain of at most four blocks returns. -/
theorem WellFormed.exists_mine {th : Thread} (h : th.WellFormed) (hshort : th.Short)
    (hroom : th.bc.chainLength < 5) (hpoint : th.point = .mine)
    (hdata : th.newBlock.leafData = .ok data)
    (hbyte : (Block.uniformRoot SHA1 data).bytes[0]? ≠ some 0) :
    ∃ th' effects, th.mine SHA1 = .ok (th', effects) := by
  obtain ⟨w, found, hloop⟩ := exists_mineLoop hdata hbyte numMagicToTry
  cases found with
  | false =>
      refine ⟨{ th with newBlock := w, point := .head }, [], ?_⟩
      unfold Thread.mine
      rw [hloop]
      rfl
  | true =>
      obtain ⟨head, hhead⟩ := hshort.exists_head
      have hnumber : ¬ 5 < UInt32.ofNat (th.bc.chainLength + 1) := by
        rw [UInt32.lt_iff_toNat_lt, Blockchain.toNat_ofNat_succ hroom.le]
        exact Nat.not_lt.2 hroom
      have hmine := mine_of_found hloop hhead (h.mineLoop hpoint hloop).1
      rw [if_neg hnumber] at hmine
      exact ⟨_, _, hmine⟩

theorem pass_of_le {n k : Nat} (h : n + numMagicToTry ≤ k) :
    (k - n) / numMagicToTry = (k - (n + numMagicToTry)) / numMagicToTry + 1 := by
  unfold numMagicToTry at *
  omega

theorem pass_of_lt {n k : Nat} (h : n ≤ k) (h' : k < n + numMagicToTry) :
    (k - n) / numMagicToTry = 0 := Nat.div_eq_of_lt (by omega)

/-- From a search under way the pass that ends it comes: the one whose tries
include the first that hits. -/
theorem GoesOn.exists_over (tail : GenesisTail) {bc : Blockchain} {n k q : Nat} {th : Thread}
    (h : GoesOn SHA1 data bc n th) (hshort : th.Short) (hroom : bc.chainLength < 5)
    (hpoint : th.point = .mine) (hbyte : (Block.uniformRoot SHA1 data).bytes[0]? ≠ some 0)
    (hk : IsLeast (hits SHA1 data) k) (hq : (k - n) / numMagicToTry = q) :
    ∃ tr th', (processingThread SHA1 tail).Run th tr th' ∧ (∀ m ∈ tr, Undisturbed m) ∧
      minePasses tr = q + 1 ∧ IsOver SHA1 data bc k th' := by
  induction q using Nat.strong_induction_on generalizing n th with
  | _ q ih =>
      obtain ⟨th', effects, hmine⟩ := h.wellFormed.exists_mine hshort (h.chain ▸ hroom) hpoint
        h.leafData hbyte
      have hstep : Step SHA1 th (.mine, effects) th' := .mine hpoint hmine
      rcases h.mine hpoint hmine with ⟨rfl, hhead, hnext⟩ | ⟨-, j, hle, hlt, hover⟩
      · -- the pass has tried every magic below `n + numMagicToTry`
        have hfar : n + numMagicToTry ≤ k :=
          Nat.le_of_not_lt fun hlt => hnext.searched.missed k hlt hk.1
        rw [pass_of_le hfar] at hq
        subst hq
        have hidle : Step SHA1 th' (.block none .alone, []) { th' with point := th'.afterBlock } :=
          .idle hhead
        have hmineNext : th'.afterBlock = .mine := by rw [afterBlock, hnext.quotafull]; rfl
        obtain ⟨tr, th'', hrun, hquiet, hpasses, hover⟩ := ih _ (Nat.lt_succ_self _) hnext.idle
          ((hshort.change hstep.change).change hidle.change) hmineNext rfl
        refine ⟨_, th'', .cons hstep (.cons hidle hrun), ?_, ?_, hover⟩
        · simp only [List.forall_mem_cons]
          exact ⟨.inl rfl, .inr ⟨_, rfl⟩, hquiet⟩
        · rw [← hpasses, Nat.add_comm (minePasses tr)]
          exact minePasses_append [_, _] tr
      · obtain rfl := hover.least.unique hk
        rw [pass_of_lt hle hlt] at hq
        subst hq
        refine ⟨_, th', .snoc .nil hstep, ?_, rfl, hover⟩
        simp [Undisturbed]

/-- Mining is one search over all its passes. While no block arrives, a block is
mined within `p` passes exactly when one of the next `numMagicToTry * p` tries
hits. On a chain of at most four blocks, the pass whose tries include the first
that hits does come, and puts the block on the chain. -/
theorem mining_search {tail : GenesisTail} {th : Thread}
    (hreach : (processingThread SHA1 tail).Reachable th) (hpoint : th.point = .mine)
    (hdata : th.newBlock.leafData = .ok data) :
    ∃ n, Searched SHA1 data n th.newBlock ∧
      (∀ tr th', (processingThread SHA1 tail).Run th tr th' → (∀ m ∈ tr, Undisturbed m) →
        ((∃ m ∈ tr, ∃ b, MinesBlock m b) ↔
          ∃ k ∈ hits SHA1 data, k < n + numMagicToTry * minePasses tr)) ∧
      ∀ k, IsLeast (hits SHA1 data) k → th.bc.chainLength < 5 →
        (Block.uniformRoot SHA1 data).bytes[0]? ≠ some 0 →
        ∃ tr th', (processingThread SHA1 tail).Run th tr th' ∧ (∀ m ∈ tr, Undisturbed m) ∧
          minePasses tr = (k - n) / numMagicToTry + 1 ∧ IsOver SHA1 data th.bc k th' := by
  obtain ⟨hw, hsearching⟩ := (searching_invariant SHA1 tail).reachable hreach
  have hshort := (short_invariant SHA1 tail).reachable hreach
  obtain ⟨n, hn⟩ := hsearching.searched data hdata
  have hon : GoesOn SHA1 data th.bc n th := ⟨hw, hw.full hpoint, rfl, hdata, hn⟩
  refine ⟨n, hn, fun tr th' hrun hquiet => ?_, fun k hk hroom hbyte => ?_⟩
  · rcases hon.run hrun hquiet with ⟨hsilent, hnext⟩ | ⟨hmines, k, hlt, hover⟩
    · refine iff_of_false ?_ ?_
      · rintro ⟨m, hm, b, -, hb⟩
        rw [hsilent m hm] at hb
        cases hb
      · rintro ⟨k, hk, hlt⟩
        exact hnext.searched.missed k hlt hk
    · exact iff_of_true hmines ⟨k, hover.least.1, hlt⟩
  · exact hon.exists_over tail hshort hroom hpoint hbyte hk rfl

/-- A thread with a full first working block. -/
theorem mining_search_first :
    ∃ th, (processingThread Block.sampleSHA1 Blockchain.sampleTail).Reachable th ∧
      th.newBlock.votes = sampleVotes 1 ∧
      ∃ n, Searched Block.sampleSHA1 Block.sampleKey n th.newBlock ∧
        (∀ tr th', (processingThread Block.sampleSHA1 Blockchain.sampleTail).Run th tr th' →
          (∀ m ∈ tr, Undisturbed m) →
          ((∃ m ∈ tr, ∃ b, MinesBlock m b) ↔
            ∃ k ∈ hits Block.sampleSHA1 Block.sampleKey, k < n + numMagicToTry * minePasses tr)) ∧
        ∀ k, IsLeast (hits Block.sampleSHA1 Block.sampleKey) k → th.bc.chainLength < 5 →
          (Block.uniformRoot Block.sampleSHA1 Block.sampleKey).bytes[0]? ≠ some 0 →
          ∃ tr th', (processingThread Block.sampleSHA1 Blockchain.sampleTail).Run th tr th' ∧
            (∀ m ∈ tr, Undisturbed m) ∧ minePasses tr = (k - n) / numMagicToTry + 1 ∧
            IsOver Block.sampleSHA1 Block.sampleKey th.bc k th' := by
  obtain ⟨tr, th, w, h⟩ := exists_mined_sample Blockchain.sampleTail 1 (by decide)
  have hpoint : th.point = .mine := by
    cases h.step with
    | mine hpoint => exact hpoint
  have hreach : (processingThread Block.sampleSHA1 Blockchain.sampleTail).Reachable th :=
    ⟨_, tr, rfl, h.run⟩
  have hpop := ((wellFormed_invariant Block.sampleSHA1 _).reachable hreach).populated hpoint
  have hdata : th.newBlock.leafData = .ok Block.sampleKey := by
    rw [hpop.leafData h.votes]
    rfl
  exact ⟨th, hreach, h.votes, mining_search hreach hpoint hdata⟩

end Thread

end OneVote
