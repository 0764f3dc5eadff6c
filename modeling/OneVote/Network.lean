-- SUMMARY: Any number of miners that all run the processing thread, and the block messages between them.
import Mathlib.Logic.Function.Basic
import OneVote.Propagation
import OneVote.Voters

/-!
# Network

Every block that a miner broadcasts stays on the wire, and is delivered to any
miner at any time, any number of times. Transactions come from outside, and what
peers answer to `getBlock` is left open.
-/

namespace OneVote

open TransitionSystem (Move)

structure Network (ι : Type*) where
  miners : ι → Thread
  wire : List BlockMsg

namespace Network

variable {ι : Type*}

def initial (tail : GenesisTail) : Network ι := ⟨fun _ => .initial tail, []⟩

/-- The messages of the blocks that a step broadcasts. -/
def sent (effects : List Effect) : List BlockMsg :=
  effects.filterMap fun
    | .broadcastBlock b => (encodeBlock b).toOption
    | _ => none

/-- A block that a step takes was decoded from a message on the wire. -/
def Delivers (s : Network ι) (i : Input) : Prop :=
  ∀ b env, i = .block (some b) env → ∃ msg ∈ s.wire, decodeBlock msg = .ok b

variable [DecidableEq ι]

/-- One step of the miner `j`. -/
inductive Step (SHA1 : Bytes → Digest) : Network ι → ι × Input × List Effect → Network ι → Prop
  | step {s : Network ι} {j : ι} {i : Input} {effects : List Effect} {th : Thread} :
      s.Delivers i →
      Thread.Step SHA1 (s.miners j) (i, effects) th →
      Step SHA1 s (j, i, effects) ⟨Function.update s.miners j th, s.wire ++ sent effects⟩

end Network

def network (ι : Type*) [DecidableEq ι] (SHA1 : Bytes → Digest) (tail : GenesisTail) :
    TransitionSystem (Network ι) (ι × Input × List Effect) where
  init s := s = .initial tail
  step := Network.Step SHA1

/-! ## Steps on blocks without votes -/

namespace Thread

variable {SHA1 : Bytes → Digest} {th th' : Thread} {i : Input} {effects : List Effect}

/-- A block that the step takes has no votes, and says so. -/
def TakesEmpty (i : Input) : Prop :=
  ∀ b env, i = .block (some b) env → b.maxInd = 0 ∧ ¬ b.Populated

/-- A thread that is sent no votes sends none. -/
theorem Change.maxInd_broadcast (hs : Change SHA1 th (i, effects) th') (hempty : TakesEmpty i)
    {w : Block} (hw : .broadcastBlock w ∈ effects) : w.maxInd = 0 := by
  cases hs with
  | @accepted b env ts _ hcheck =>
      obtain ⟨-, -, -, hpop, -⟩ := Blockchain.checkBlockValidity_eq_ok.1 hcheck
      exact absurd hpop (hempty b env rfl).2
  | @repaired b head env =>
      simp only [List.mem_append, List.mem_map, List.mem_cons, reduceCtorEq, and_false,
        exists_false, false_or, or_false, Effect.broadcastBlock.injEq] at hw
      rw [hw]
      exact (hempty b env rfl).1
  | taken => simp at hw
  | mined =>
      cases List.mem_singleton.1 hw
      rfl
  | _ => cases hw

/-- A thread that is sent no votes grows its chain by mining only. -/
theorem Change.nonGenesis_cases (hs : Change SHA1 th (i, effects) th') (hempty : TakesEmpty i)
    (hne : th.bc.blocks ≠ []) :
    th'.bc.nonGenesis <:+ th.bc.nonGenesis ∨
      ∃ b, i = .mine ∧ .broadcastBlock b ∈ effects ∧ th'.bc.nonGenesis = b :: th.bc.nonGenesis ∧
        b.HashMatches SHA1 ∧ b.MeetsTarget ∧
        b.transactionArray = th.newBlock.transactionArray := by
  cases hs with
  | @accepted b env ts _ hcheck =>
      obtain ⟨-, -, -, hpop, -⟩ := Blockchain.checkBlockValidity_eq_ok.1 hcheck
      exact absurd hpop (hempty b env rfl).2
  | repaired =>
      rw [Blockchain.nonGenesis_truncated]
      exact .inl (List.drop_suffix _ _)
  | @mined w head _ hloop =>
      obtain ⟨⟨magic, root, fin, hw⟩, hfound⟩ := mineLoop_spec hloop
      obtain ⟨hmatches, htarget⟩ := hfound rfl
      refine .inr ⟨_, rfl, List.mem_singleton_self _, Blockchain.nonGenesis_appended hne _,
        hashMatches_minedBlock hmatches head _, htarget, ?_⟩
      rw [hw]
      rfl
  | _ => exact .inl (List.suffix_refl _)

end Thread

/-! ## No votes travel -/

namespace Network

variable {ι : Type*} [DecidableEq ι] {SHA1 : Bytes → Digest}

/-- No message on the wire carries a vote, and every chain is counted on top of
one genesis block. -/
structure Silent (tail : GenesisTail) (s : Network ι) : Prop where
  wire : ∀ msg ∈ s.wire, msg.IsEmpty
  counted : ∀ j, (s.miners j).Counted
  genesis : ∀ j, (s.miners j).bc.blocks.getLast? = some (Blockchain.genesis tail)

omit [DecidableEq ι] in
theorem initial_silent (tail : GenesisTail) : (initial tail : Network ι).Silent tail where
  wire := by
    intro msg hmsg
    cases hmsg
  counted := fun _ => Thread.initial_counted tail
  genesis := fun _ => rfl

omit [DecidableEq ι] in
theorem Silent.takesEmpty {tail : GenesisTail} {s : Network ι} (h : s.Silent tail) {i : Input}
    (hi : s.Delivers i) : Thread.TakesEmpty i := by
  intro b env hb
  obtain ⟨msg, hmsg, hdecode⟩ := hi b env hb
  obtain ⟨hmax, -, hpop⟩ := (h.wire msg hmsg).decoded hdecode
  exact ⟨hmax, hpop⟩

omit [DecidableEq ι] in
theorem Silent.nonempty {tail : GenesisTail} {s : Network ι} (h : s.Silent tail) (j : ι) :
    (s.miners j).bc.blocks ≠ [] := by
  obtain ⟨t, ht⟩ := (h.counted j).counts
  exact ht.nonempty

/-- What holds of every miner before the step, and of the one that moved after
it, holds of every miner after it. -/
theorem forall_update {miners : ι → Thread} {P : Thread → Prop} {j : ι} {th : Thread}
    (h : ∀ k, P (miners k)) (hth : P th) : ∀ k, P (Function.update miners j th k) := by
  intro k
  by_cases hk : k = j
  · subst hk
    rwa [Function.update_self]
  · rw [Function.update_of_ne hk]
    exact h k

theorem Step.silent {tail : GenesisTail} {s s' : Network ι} {i : ι × Input × List Effect}
    (hs : Step SHA1 s i s') (h : s.Silent tail) : s'.Silent tail := by
  cases hs with
  | @step j i effects th hdelivers hstep =>
      have hempty := h.takesEmpty hdelivers
      refine ⟨?_, ?_, ?_⟩
      · intro msg hmsg
        rcases List.mem_append.1 hmsg with hmsg | hmsg
        · exact h.wire msg hmsg
        · obtain ⟨effect, heffect, hencode⟩ := List.mem_filterMap.1 hmsg
          cases effect with
          | broadcastBlock w =>
              cases henc : encodeBlock w with
              | error e => simp [henc, Except.toOption] at hencode
              | ok msg' =>
                  obtain rfl : msg' = msg := by simpa [henc, Except.toOption] using hencode
                  exact encodeBlock_isEmpty henc (hstep.change.maxInd_broadcast hempty heffect)
          | broadcastTransaction t => cases hencode
          | push t => cases hencode
      · exact forall_update h.counted ((h.counted j).change hstep.change)
      · exact forall_update (P := fun th => th.bc.blocks.getLast? = some (Blockchain.genesis tail))
          h.genesis (hstep.change.getLast?_blocks (h.genesis j))

theorem silent_invariant (SHA1 : Bytes → Digest) (tail : GenesisTail) :
    (network ι SHA1 tail).Invariant (Silent tail) where
  init := by
    rintro s rfl
    exact initial_silent tail
  step := fun _ _ _ hstep h => Step.silent hstep h

/-- A run of one miner that takes no blocks, while the others rest. -/
theorem exists_lifted {tail : GenesisTail} {th th' : Thread}
    {tr : List (Move Thread (Input × List Effect))}
    (h : (processingThread SHA1 tail).Run th tr th')
    (hblock : ∀ m ∈ tr, ∀ b env, m.label.1 ≠ .block (some b) env) (s : Network ι) {j : ι}
    (hs : s.miners j = th) :
    ∃ tr' s', (network ι SHA1 tail).Run s tr' s' ∧
      s'.miners = Function.update s.miners j th' ∧
      ∀ m' ∈ tr', ∃ m ∈ tr, m'.label = (j, m.label) := by
  induction h with
  | nil => exact ⟨[], s, .nil, by rw [← hs, Function.update_eq_self], by simp⟩
  | @snoc th₁ th₂ tr i hrun hstep ih =>
      simp only [List.forall_mem_append, List.forall_mem_singleton] at hblock
      obtain ⟨tr', s', hrun', hminers, hlabels⟩ := ih hblock.1
      have hj : s'.miners j = th₁ := by rw [hminers, Function.update_self]
      have hdelivers : s'.Delivers i.1 := fun b env hb => absurd hb (hblock.2 b env)
      have hnext : (network ι SHA1 tail).step s' (j, i) _ := .step hdelivers (hj ▸ hstep)
      refine ⟨_, _, hrun'.snoc hnext, ?_, ?_⟩
      · rw [hminers, Function.update_idem]
      · intro m' hm'
        rcases List.mem_append.1 hm' with hm' | hm'
        · obtain ⟨m, hm, hlabel⟩ := hlabels m' hm'
          exact ⟨m, List.mem_append_left _ hm, hlabel⟩
        · obtain rfl := List.mem_singleton.1 hm'
          exact ⟨_, List.mem_append_right _ (List.mem_singleton_self _), rfl⟩

end Network

end OneVote
