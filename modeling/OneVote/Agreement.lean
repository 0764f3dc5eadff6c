-- SUMMARY: When the hash of the head determines the votes: every first voter must decide the chain below it.
import OneVote.FinalHash
import OneVote.Network

/-!
# Agreement

Two miners with the same head hash share the first voter of the head block, and
nothing else for certain: the other votes and the blocks below are not hashed.
The heads agree as long as no two chains with different votes end in blocks of
one first voter.
-/

namespace OneVote

open TransitionSystem (Move)

namespace Blockchain

/-- The ballots above genesis, block by block, newest first. -/
def ballots (bc : Blockchain) : List (List (Bytes × Bytes)) := bc.nonGenesis.map (·.ballots)

/-- The same length, and the same transactions block by block. -/
def SameBallots (bc bc' : Blockchain) : Prop :=
  bc.blocks.length = bc'.blocks.length ∧ bc.ballots = bc'.ballots

theorem SameBallots.of_ballots {bc bc' : Blockchain} {g g' : Block}
    (h : bc.blocks.getLast? = some g) (h' : bc'.blocks.getLast? = some g')
    (hballots : bc.ballots = bc'.ballots) : bc.SameBallots bc' := by
  refine ⟨?_, hballots⟩
  have hlen := congrArg List.length hballots
  rw [ballots, ballots, List.length_map, List.length_map] at hlen
  rw [blocks_eq h, blocks_eq h', List.length_append, List.length_append, hlen]
  rfl

end Blockchain

namespace Network

variable {ι : Type*}

/-- Miners whose head blocks have the same final hash have the same votes. -/
def Agreement (s : Network ι) : Prop :=
  ∀ j k head head', (s.miners j).bc.getHeadBlock = .ok head →
    (s.miners k).bc.getHeadBlock = .ok head' → sameHash head.finhash head'.finhash = .ok true →
    (s.miners j).bc.SameBallots (s.miners k).bc

/-- The move mined the block `b`. -/
def Mines (m : Move (Network ι) (ι × Input × List Effect)) (b : Block) : Prop :=
  m.label.2.1 = .mine ∧ .broadcastBlock b ∈ m.label.2.2

/-- The strings hashed for the blocks that were mined in the run. -/
def HashedIn (SHA1 : Bytes → Digest) (tr : List (Move (Network ι) (ι × Input × List Effect))) :
    Set Bytes :=
  {s | ∃ m ∈ tr, ∃ b, Mines m b ∧ b.Hashes SHA1 s}

/-- If the move mines the working block, every chain that ends in a block with
the same first voter, as far as the leaves read the key, has the votes of the
chain that the working block will end. -/
def FirstVoterDecides (m : Move (Network ι) (ι × Input × List Effect)) : Prop :=
  (∃ b, Mines m b) → ∀ j c cs data, (c :: cs) <:+ (m.pre.miners j).bc.nonGenesis →
    c.leafData = .ok data → (m.pre.miners m.label.1).newBlock.leafData = .ok data →
    (c :: cs).map (·.ballots) =
      (m.pre.miners m.label.1).newBlock.ballots :: (m.pre.miners m.label.1).bc.ballots

/-- Chains that end in blocks with one first voter have the same votes. -/
def Decided (s : Network ι) : Prop :=
  ∀ j k b bs c cs data, (b :: bs) <:+ (s.miners j).bc.nonGenesis →
    (c :: cs) <:+ (s.miners k).bc.nonGenesis → b.leafData = .ok data → c.leafData = .ok data →
    (b :: bs).map (·.ballots) = (c :: cs).map (·.ballots)

theorem initial_decided (tail : GenesisTail) : (initial tail : Network ι).Decided := by
  intro j k b bs c cs data hb
  exact absurd (List.suffix_nil.1 hb) (List.cons_ne_nil _ _)

variable [DecidableEq ι] {SHA1 : Bytes → Digest}

/-- The transactions of a block are all that its leaves and its ballots are read
from. -/
theorem leafData_ballots_congr {b c : Block} (h : b.transactionArray = c.transactionArray) :
    b.leafData = c.leafData ∧ b.ballots = c.ballots := by
  simp only [Block.leafData, Block.entry, Block.ballots, Block.votes, h, and_self]

/-- A chain after a step is a chain from before it, or the mover's with the
working block on top. -/
theorem Step.suffix_cases {tail : GenesisTail} {s s' : Network ι} {i : ι × Input × List Effect}
    (hs : Step SHA1 s i s') (h : s.Silent tail) {k : ι} {c : Block} {cs : List Block}
    (hc : (c :: cs) <:+ (s'.miners k).bc.nonGenesis) :
    (∃ k', (c :: cs) <:+ (s.miners k').bc.nonGenesis) ∨
      (∃ b, Mines ⟨s, i, s'⟩ b) ∧ c.leafData = (s.miners i.1).newBlock.leafData ∧
        (c :: cs).map (·.ballots) =
          (s.miners i.1).newBlock.ballots :: (s.miners i.1).bc.ballots := by
  cases hs with
  | @step j i effects th hdelivers hstep =>
      dsimp only at hc ⊢
      by_cases hk : k = j
      · subst hk
        rw [Function.update_self] at hc
        rcases hstep.change.nonGenesis_cases (h.takesEmpty hdelivers) (h.nonempty k) with
          hold | ⟨b, hmine, hbroadcast, hnew, -, -, harr⟩
        · exact .inl ⟨k, hc.trans hold⟩
        · rw [hnew, List.suffix_cons_iff] at hc
          rcases hc with heq | hc
          · obtain ⟨rfl, rfl⟩ := List.cons.inj heq
            obtain ⟨hleaf, hballots⟩ := leafData_ballots_congr harr
            refine .inr ⟨⟨c, hmine, hbroadcast⟩, hleaf, ?_⟩
            rw [List.map_cons, hballots]
            rfl
          · exact .inl ⟨k, hc⟩
      · rw [Function.update_of_ne hk] at hc
        exact .inl ⟨k, hc⟩

theorem Step.decided {tail : GenesisTail} {s s' : Network ι} {i : ι × Input × List Effect}
    (hs : Step SHA1 s i s') (h : s.Silent tail) (hfirst : FirstVoterDecides ⟨s, i, s'⟩)
    (hd : s.Decided) : s'.Decided := by
  intro j k b bs c cs data hb hc hbdata hcdata
  rcases hs.suffix_cases h hb with ⟨j', hbold⟩ | ⟨hmines, hbleaf, hbnew⟩
  · rcases hs.suffix_cases h hc with ⟨k', hcold⟩ | ⟨hmines, hcleaf, hcnew⟩
    · exact hd j' k' b bs c cs data hbold hcold hbdata hcdata
    · rw [hcnew]
      exact hfirst hmines j' b bs data hbold hbdata (hcleaf.symm.trans hcdata)
  · rcases hs.suffix_cases h hc with ⟨k', hcold⟩ | ⟨-, hcleaf, hcnew⟩
    · rw [hbnew]
      exact (hfirst hmines k' c cs data hcold hcdata (hbleaf.symm.trans hbdata)).symm
    · rw [hbnew, hcnew]

/-- Every block above genesis was mined in the run, with proof of work. -/
theorem mined_of_run {tail : GenesisTail} {s : Network ι}
    {tr : List (Move (Network ι) (ι × Input × List Effect))}
    (h : (network ι SHA1 tail).Run (.initial tail) tr s) :
    ∀ j, ∀ b ∈ (s.miners j).bc.nonGenesis,
      b.HashMatches SHA1 ∧ b.MeetsTarget ∧ ∃ m ∈ tr, Mines m b := by
  induction h with
  | nil =>
      intro j b hb
      cases hb
  | @snoc s s' tr i hrun hstep ih =>
      have hsilent := (silent_invariant SHA1 tail).preserved.run hrun (initial_silent tail)
        (by simp)
      have hold : ∀ j, ∀ b ∈ (s.miners j).bc.nonGenesis, b.HashMatches SHA1 ∧ b.MeetsTarget ∧
          ∃ m ∈ tr ++ [⟨s, i, s'⟩], Mines m b := by
        intro j b hb
        obtain ⟨hmatches, htarget, m, hm, hmines⟩ := ih j b hb
        exact ⟨hmatches, htarget, m, List.mem_append_left _ hm, hmines⟩
      cases hstep with
      | @step k i effects th hdelivers hthread =>
          refine forall_update (P := fun th => ∀ b ∈ th.bc.nonGenesis, b.HashMatches SHA1 ∧
            b.MeetsTarget ∧ ∃ m ∈ tr ++ _, Mines m b) hold ?_
          intro b hb
          rcases hthread.change.nonGenesis_cases (hsilent.takesEmpty hdelivers)
            (hsilent.nonempty k) with hsuffix | ⟨w, hmine, hbroadcast, hnew, hmatches, htarget, -⟩
          · exact hold k b (hsuffix.subset hb)
          · rw [hnew, List.mem_cons] at hb
            rcases hb with rfl | hb
            · exact ⟨hmatches, htarget, _, List.mem_append_right _ (List.mem_singleton_self _),
                hmine, hbroadcast⟩
            · exact hold k b hb

/-- Heads that are mined blocks with one final hash have the same first voter, so
the chains below them have the same votes. -/
theorem ballots_eq_of_sameHash {tail : GenesisTail} {s : Network ι}
    {tr : List (Move (Network ι) (ι × Input × List Effect))}
    (h : (network ι SHA1 tail).Run (.initial tail) tr s)
    (hinj : Set.InjOn SHA1 (HashedIn SHA1 tr)) (hd : s.Decided) {j k : ι} {b c : Block}
    {bs cs : List Block} (hj : (s.miners j).bc.nonGenesis = b :: bs)
    (hk : (s.miners k).bc.nonGenesis = c :: cs)
    (hsame : sameHash b.finhash c.finhash = .ok true) :
    (s.miners j).bc.ballots = (s.miners k).bc.ballots := by
  obtain ⟨hb, -, m, hm, hmb⟩ := mined_of_run h j b (hj ▸ List.mem_cons_self)
  obtain ⟨hc, -, m', hm', hmc⟩ := mined_of_run h k c (hk ▸ List.mem_cons_self)
  obtain ⟨data, hbdata, hcdata⟩ := hb.leafData_eq hinj hc (fun s hs => ⟨m, hm, b, hmb, hs⟩)
    (fun s hs => ⟨m', hm', c, hmc, hs⟩) hsame
  rw [Blockchain.ballots, Blockchain.ballots, hj, hk]
  exact hd j k b bs c cs data (hj ▸ List.suffix_refl _) (hk ▸ List.suffix_refl _) hbdata hcdata

/-- In every run in which the first voters decide, miners whose heads have one
hash have one voting history. -/
theorem agreement {tail : GenesisTail} {s : Network ι}
    {tr : List (Move (Network ι) (ι × Input × List Effect))}
    (h : (network ι SHA1 tail).Run (.initial tail) tr s)
    (hinj : Set.InjOn SHA1 (HashedIn SHA1 tr)) (hfirst : ∀ m ∈ tr, FirstVoterDecides m) :
    s.Agreement := by
  have hpres : (network ι SHA1 tail).PreservedUnder FirstVoterDecides
      fun s => s.Silent tail ∧ s.Decided :=
    fun _ _ _ hstep hm hs => ⟨Step.silent hstep hs.1, Step.decided hstep hs.1 hm hs.2⟩
  obtain ⟨hsilent, hd⟩ := hpres.run h ⟨initial_silent tail, initial_decided tail⟩ hfirst
  intro j k head head' hhead hhead' hsame
  apply Blockchain.SameBallots.of_ballots (hsilent.genesis j) (hsilent.genesis k)
  rcases Blockchain.getHeadBlock_cases (hsilent.genesis j) hhead with ⟨hj, rfl⟩ | ⟨bs, hj⟩
  · rcases Blockchain.getHeadBlock_cases (hsilent.genesis k) hhead' with ⟨hk, -⟩ | ⟨cs, hk⟩
    · rw [Blockchain.ballots, Blockchain.ballots, hj, hk]
    · obtain ⟨-, htarget, -⟩ := mined_of_run h k head' (hk ▸ List.mem_cons_self)
      exact absurd hsame (htarget.not_genesis tail)
  · rcases Blockchain.getHeadBlock_cases (hsilent.genesis k) hhead' with ⟨-, rfl⟩ | ⟨cs, hk⟩
    · obtain ⟨-, htarget, -⟩ := mined_of_run h j head (hj ▸ List.mem_cons_self)
      exact absurd (sameHash_symm hsame) (htarget.not_genesis tail)
    · exact ballots_eq_of_sameHash h hinj hd hj hk hsame

/-! ## Two miners with one first voter -/

/-- A miner mines a first block of the votes `sampleVotes id`. -/
theorem exists_mined_by (s : Network ι) (j : ι) (id : UInt8)
    (hs : s.miners j = .initial Blockchain.sampleTail)
    (hnodup : ((Thread.sampleVotes id).map (·.senderPublicKey)).Nodup) :
    ∃ tr s' w, (network ι Block.sampleSHA1 Blockchain.sampleTail).Run s tr s' ∧
      s'.miners = Function.update s.miners j
        ⟨Thread.appended (.new Blockchain.sampleTail)
          (Thread.minedBlock w (Blockchain.genesis Blockchain.sampleTail)), .new, false, .head⟩ ∧
      w.votes = Thread.sampleVotes id ∧ w.finhash = Block.sampleFinhash.ptr ∧
      (∀ m ∈ tr, ∀ b, Mines m b → b.leafData = .ok Block.sampleKey ∧ b.magic = 1) ∧
      ((∀ k c cs, (c :: cs) <:+ (s.miners k).bc.nonGenesis →
        (c :: cs).map (·.ballots) = [w.ballots]) → ∀ m ∈ tr, FirstVoterDecides m) := by
  obtain ⟨tr, th, w, hw⟩ := Thread.exists_mined_sample Blockchain.sampleTail id hnodup
  obtain ⟨tr', s₁, hrun, hminers, hlabels⟩ := exists_lifted hw.run hw.takes.noBlock s hs
  -- up to the last step the miner only collects votes
  have hnot : ∀ m ∈ tr', ∀ b, ¬ Mines m b := by
    rintro m hm b ⟨hmine, -⟩
    obtain ⟨m', hm', hlabel⟩ := hlabels m hm
    rw [hlabel] at hmine
    exact hw.takes.noMine m' hm' hmine
  have hj : s₁.miners j = th := by rw [hminers, Function.update_self]
  have hnext : (network ι Block.sampleSHA1 Blockchain.sampleTail).step s₁ (j, .mine, _) _ :=
    .step (by intro b env hb; cases hb) (hj ▸ hw.step)
  refine ⟨_, _, w, hrun.snoc hnext, ?_, hw.votes_mined, hw.finhash, ?_, ?_⟩
  · rw [hminers, Function.update_idem]
  · simp only [List.forall_mem_append, List.forall_mem_singleton]
    refine ⟨fun m hm b hmines => absurd hmines (hnot m hm b), ?_⟩
    rintro b ⟨-, hb⟩
    cases List.mem_singleton.1 hb
    refine ⟨?_, hw.magic⟩
    change w.leafData = _
    rw [hw.populated.leafData hw.votes_mined]
    decide
  · intro hprev
    simp only [List.forall_mem_append, List.forall_mem_singleton]
    refine ⟨fun m hm hmines => absurd hmines.choose_spec (hnot m hm _), ?_⟩
    intro _ k c cs data hc _ _
    have hnew : (s₁.miners j).newBlock.ballots :: (s₁.miners j).bc.ballots = [w.ballots] := by
      rw [hj, hw.bc, Block.ballots, hw.votes, Block.ballots, hw.votes_mined]
      rfl
    dsimp only at hc ⊢
    rw [hnew]
    by_cases hk : k = j
    · subst hk
      rw [hj, hw.bc] at hc
      exact absurd (List.suffix_nil.1 hc) (List.cons_ne_nil _ _)
    · rw [hminers, Function.update_of_ne hk] at hc
      exact hprev k c cs hc

omit [DecidableEq ι] in
/-- The five strings that are hashed for a block of the sample voter have five
digests. -/
theorem sample_injOn {tr : List (Move (Network ι) (ι × Input × List Effect))}
    (h : ∀ m ∈ tr, ∀ b, Mines m b → b.leafData = .ok Block.sampleKey ∧ b.magic = 1) :
    Set.InjOn Block.sampleSHA1 (HashedIn Block.sampleSHA1 tr) := by
  have hmem : ∀ s ∈ HashedIn Block.sampleSHA1 tr,
      s ∈ Block.hashInputs Block.sampleSHA1 Block.sampleKey 1 := by
    rintro s ⟨m, hm, b, hb, data, hdata, hs⟩
    obtain ⟨hleaf, hmagic⟩ := h m hm b hb
    cases hdata.symm.trans hleaf
    rwa [hmagic] at hs
  have hinj : ∀ s ∈ Block.hashInputs Block.sampleSHA1 Block.sampleKey 1,
      ∀ s' ∈ Block.hashInputs Block.sampleSHA1 Block.sampleKey 1,
        Block.sampleSHA1 s = Block.sampleSHA1 s' → s = s' := by decide
  exact fun s hs s' hs' => hinj s (hmem s hs) s' (hmem s' hs')

/-- Two miners mine, one after the other, blocks with the same first voter. -/
theorem exists_two_mined (id id' : UInt8)
    (hnodup : ((Thread.sampleVotes id).map (·.senderPublicKey)).Nodup)
    (hnodup' : ((Thread.sampleVotes id').map (·.senderPublicKey)).Nodup) :
    ∃ tr s w w', (network Bool Block.sampleSHA1 Blockchain.sampleTail).Run
        (.initial Blockchain.sampleTail) tr s ∧
      (s.miners false).bc = Thread.appended (.new Blockchain.sampleTail)
        (Thread.minedBlock w (Blockchain.genesis Blockchain.sampleTail)) ∧
      (s.miners true).bc = Thread.appended (.new Blockchain.sampleTail)
        (Thread.minedBlock w' (Blockchain.genesis Blockchain.sampleTail)) ∧
      w.votes = Thread.sampleVotes id ∧ w'.votes = Thread.sampleVotes id' ∧
      w.finhash = Block.sampleFinhash.ptr ∧ w'.finhash = Block.sampleFinhash.ptr ∧
      Set.InjOn Block.sampleSHA1 (HashedIn Block.sampleSHA1 tr) ∧
      (w.ballots = w'.ballots → ∀ m ∈ tr, FirstVoterDecides m) := by
  obtain ⟨tr, s, w, hrun, hminers, hvotes, hfin, hhashed, hfirst⟩ :=
    exists_mined_by (.initial Blockchain.sampleTail) false id rfl hnodup
  have htrue : s.miners true = .initial Blockchain.sampleTail := by rw [hminers]; rfl
  obtain ⟨tr', s', w', hrun', hminers', hvotes', hfin', hhashed', hfirst'⟩ :=
    exists_mined_by s true id' htrue hnodup'
  refine ⟨tr ++ tr', s', w, w', hrun.append hrun', ?_, ?_, hvotes, hvotes', hfin, hfin',
    sample_injOn (List.forall_mem_append.2 ⟨hhashed, hhashed'⟩), fun hsame => ?_⟩
  · rw [hminers', hminers]
    rfl
  · rw [hminers']
    rfl
  · refine List.forall_mem_append.2 ⟨hfirst ?_, hfirst' ?_⟩
    · intro k c cs hc
      exact absurd (List.suffix_nil.1 hc) (List.cons_ne_nil _ _)
    · intro k c cs hc
      cases k with
      | true =>
          rw [htrue] at hc
          exact absurd (List.suffix_nil.1 hc) (List.cons_ne_nil _ _)
      | false =>
          rw [hminers, Function.update_self] at hc
          rcases List.suffix_cons_iff.1 hc with heq | hc
          · obtain ⟨rfl, rfl⟩ := List.cons.inj heq
            exact congrArg (fun b => [b]) hsame
          · exact absurd (List.suffix_nil.1 hc) (List.cons_ne_nil _ _)

/-- Two miners that mine the same votes agree. -/
theorem agreement_sample :
    ∃ tr s, (network Bool Block.sampleSHA1 Blockchain.sampleTail).Run
        (.initial Blockchain.sampleTail) tr s ∧
      (s.miners false).bc.chainLength = 2 ∧ (s.miners true).bc.chainLength = 2 ∧ s.Agreement := by
  obtain ⟨tr, s, w, w', hrun, hfalse, htrue, hvotes, hvotes', -, -, hinj, hfirst⟩ :=
    exists_two_mined 1 1 (by decide) (by decide)
  have hsame : w.ballots = w'.ballots := by rw [Block.ballots, Block.ballots, hvotes, hvotes']
  refine ⟨tr, s, hrun, ?_, ?_, agreement hrun hinj (hfirst hsame)⟩
  · rw [hfalse]
    rfl
  · rw [htrue]
    rfl

/-- Two miners mine blocks that share the first voter only, and their heads have
the same hash. -/
theorem same_head_other_votes :
    ¬ ∀ tail tr s, (network Bool Block.sampleSHA1 tail).Run (.initial tail) tr s →
      Set.InjOn Block.sampleSHA1 (HashedIn Block.sampleSHA1 tr) → s.Agreement := by
  intro h
  obtain ⟨tr, s, w, w', hrun, hfalse, htrue, hvotes, hvotes', hfin, hfin', hinj, -⟩ :=
    exists_two_mined 1 9 (by decide) (by decide)
  have hsame : sameHash w.finhash w'.finhash = .ok true := by
    rw [hfin, hfin']
    exact sameHash_ptr.2 rfl
  have hhead : (s.miners false).bc.getHeadBlock = .ok (Blockchain.numbered
      (Thread.minedBlock w (Blockchain.genesis Blockchain.sampleTail)) 2) := by
    rw [hfalse]
    rfl
  have hhead' : (s.miners true).bc.getHeadBlock = .ok (Blockchain.numbered
      (Thread.minedBlock w' (Blockchain.genesis Blockchain.sampleTail)) 2) := by
    rw [htrue]
    rfl
  obtain ⟨-, hballots⟩ := h _ tr s hrun hinj false true _ _ hhead hhead' hsame
  rw [hfalse, htrue] at hballots
  have hvotes₂ : w.ballots = w'.ballots := List.head_eq_of_cons_eq hballots
  rw [Block.ballots, Block.ballots, hvotes, hvotes'] at hvotes₂
  revert hvotes₂
  decide

end Network

end OneVote
