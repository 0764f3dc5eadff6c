-- SUMMARY: How often transactions are passed on: at most once for each voter and working block, and finitely often in a network.
import Mathlib.Data.Fintype.Prod
import Mathlib.Logic.Function.Basic
import OneVote.WorkingBlock

/-!
# Gossip

A miner passes on every transaction that it puts into its working block, with no
table of what it passed on before. The working block is its memory: a voter in
it is thrown out. The memory is lost when the working block starts over.
-/

namespace OneVote

open TransitionSystem (Move)

/-- The transactions handed to `BroadcastTransaction`, in order. -/
def announced (effects : List Effect) : List Transaction :=
  effects.filterMap fun
    | .broadcastTransaction t => some t
    | _ => none

@[simp] theorem announced_nil : announced [] = [] := rfl
@[simp] theorem announced_broadcastBlock (b : Block) (effects : List Effect) :
    announced (.broadcastBlock b :: effects) = announced effects := rfl
@[simp] theorem announced_broadcastTransaction (t : Transaction) (effects : List Effect) :
    announced (.broadcastTransaction t :: effects) = t :: announced effects := rfl

@[simp] theorem announced_append (effects effects' : List Effect) :
    announced (effects ++ effects') = announced effects ++ announced effects' :=
  List.filterMap_append

@[simp] theorem announced_map_push (ts : List Transaction) : announced (ts.map .push) = [] := by
  rw [announced, List.filterMap_map]
  exact List.filterMap_eq_nil_iff.2 fun _ _ => rfl

namespace Thread

variable {SHA1 : Bytes → Digest}

/-- Handling the input starts a new working block: a block is accepted or a
repair against it succeeds, so that the `switch` ends without `docontinue`, or a
block is mined. -/
def resets (SHA1 : Bytes → Digest) (th : Thread) : Input → Bool
  | .block (some b) env =>
      match th.handleBlock b env with
      | .ok (_, docontinue, _) => !docontinue
      | .error _ => false
  | .mine =>
      match mineLoop SHA1 numMagicToTry th.newBlock with
      | .ok (_, found) => found
      | .error _ => false
  | _ => false

theorem Step.resets_iff {th th' : Thread} {b : Block} {env : RepairEnv} {effects : List Effect}
    (h : Step SHA1 th (.block (some b) env, effects) th') :
    th.resets SHA1 (.block (some b) env) = true ↔ th'.point ≠ .head := by
  cases h with
  | block hpoint hhandle =>
      rename_i th₁ docontinue
      simp only [resets, hhandle]
      cases docontinue with
      | true => simp
      | false =>
          unfold afterBlock
          cases th₁.quotafull <;> simp

theorem Step.resets_mine_iff {th th' : Thread} {effects : List Effect}
    (h : Step SHA1 th (.mine, effects) th') : th.resets SHA1 .mine = true ↔ effects ≠ [] := by
  cases h with
  | mine hpoint hmine =>
      unfold Thread.mine at hmine
      obtain ⟨⟨w, found⟩, hloop, hmine⟩ := Except.bind_eq_ok.1 hmine
      simp only [resets, hloop]
      cases found with
      | false =>
          cases hmine
          simp
      | true =>
          obtain ⟨head, -, hmine⟩ := Except.bind_eq_ok.1 hmine
          obtain ⟨⟨bc, b⟩, -, hmine⟩ := Except.bind_eq_ok.1 hmine
          dsimp only at hmine
          split at hmine
          · cases hmine
          · cases hmine
            simp

/-- A step starts a new working block and announces nothing, or it announces
what it adds to the working block. -/
theorem Step.announced_cases {th th' : Thread} {i : Input} {effects : List Effect}
    (h : Step SHA1 th (i, effects) th') (hw : th.WellFormed) :
    th.resets SHA1 i = true ∧ announced effects = [] ∧ th'.newBlock.senders = [] ∨
      th.resets SHA1 i = false ∧ pushes effects = [] ∧
        (∀ t ∈ announced effects, i = .transaction t) ∧
        th'.newBlock.senders =
          th.newBlock.senders ++ (announced effects).map (·.senderPublicKey) := by
  cases h.change with
  | ignored =>
      refine .inr ⟨?_, rfl, by simp, by simp⟩
      rw [Bool.eq_false_iff, Ne, h.resets_iff]
      simp
  | accepted => exact .inl ⟨h.resets_iff.2 (by simp), by simp, rfl⟩
  | repaired => exact .inl ⟨h.resets_iff.2 (by simp), by simp, rfl⟩
  | taken _ _ hts hmem hset =>
      cases hts.symm.trans hw.filling.entries
      refine .inr ⟨rfl, rfl, by simp, ?_⟩
      rw [hw.filling.senders_setEntry hmem hset]
      rfl
  | missed =>
      refine .inr ⟨?_, rfl, by simp, by simp [Block.senders, Block.votes]⟩
      rw [Bool.eq_false_iff, Ne, h.resets_mine_iff]
      simp
  | mined => exact .inl ⟨h.resets_mine_iff.2 (by simp), rfl, rfl⟩
  | _ => exact .inr ⟨rfl, rfl, by simp, by simp⟩

/-! ## One miner -/

/-- How often the run calls `BroadcastTransaction` for the voter. -/
def announcements (tr : List (Move Thread (Input × List Effect))) (k : Bytes) : Nat :=
  ((tr.flatMap fun m => announced m.label.2).map (·.senderPublicKey)).count k

/-- How often the run starts a new working block. -/
def resetsIn (SHA1 : Bytes → Digest) (tr : List (Move Thread (Input × List Effect))) : Nat :=
  tr.countP fun m => m.pre.resets SHA1 m.label.1

theorem announcements_snoc (tr : List (Move Thread (Input × List Effect)))
    (m : Move Thread (Input × List Effect)) (k : Bytes) :
    announcements (tr ++ [m]) k =
      announcements tr k + ((announced m.label.2).map (·.senderPublicKey)).count k := by
  simp only [announcements, List.flatMap_append, List.flatMap_singleton, List.map_append,
    List.count_append]

theorem resetsIn_snoc (tr : List (Move Thread (Input × List Effect)))
    (m : Move Thread (Input × List Effect)) :
    resetsIn SHA1 (tr ++ [m]) =
      resetsIn SHA1 tr + if m.pre.resets SHA1 m.label.1 = true then 1 else 0 := by
  simp only [resetsIn, List.countP_append, List.countP_singleton]

/-- What was announced of a voter was announced before the last reset, or the
voter is in the working block. -/
theorem announcements_le_count {tail : GenesisTail} {th : Thread}
    {tr : List (Move Thread (Input × List Effect))}
    (h : (processingThread SHA1 tail).Run (.initial tail) tr th) (k : Bytes) :
    announcements tr k ≤ resetsIn SHA1 tr + th.newBlock.senders.count k := by
  induction h with
  | nil => exact Nat.zero_le _
  | @snoc th th' tr i hrun hstep ih =>
      have hw : th.WellFormed := (wellFormed_invariant SHA1 tail).preserved.run hrun
        (initial_wellFormed tail) (by simp)
      have honce : th.newBlock.senders.count k ≤ 1 :=
        List.nodup_iff_count_le_one.1 hw.filling.nodup k
      rw [announcements_snoc, resetsIn_snoc]
      dsimp only
      rcases hstep.announced_cases hw with ⟨hreset, hnone, hempty⟩ | ⟨hreset, -, -, hsenders⟩
      · rw [hreset, hnone, hempty, if_pos rfl, List.map_nil, List.count_nil]
        omega
      · rw [hreset, hsenders, List.count_append, if_neg (by simp)]
        omega

end Thread

/-! ## A network of miners

Votes are submitted to any miner. What a miner broadcasts reaches any miner, any
number of times, itself included. A queue hands out anything that was ever
pushed to it, in any order and any number of times. -/

structure Flood (ι : Type*) where
  threads : ι → Thread
  /-- everything that was ever pushed to the miner's `tq` -/
  pushed : ι → List Transaction
  submitted : List Transaction
  broadcasts : List (ι × Transaction)

inductive Flood.Event (ι : Type*)
  /-- a voting booth sends a vote to a miner -/
  | submit (j : ι) (t : Transaction)
  /-- `BroadcastTransaction` of some miner reaches the miner `j` -/
  | deliver (j : ι) (t : Transaction)
  | process (j : ι) (i : Input) (effects : List Effect)

namespace Flood

variable {ι : Type*}

def initial (tail : GenesisTail) : Flood ι := ⟨fun _ => .initial tail, fun _ => [], [], []⟩

variable [DecidableEq ι]

def push (s : Flood ι) (j : ι) (ts : List Transaction) : Flood ι :=
  { s with pushed := Function.update s.pushed j (s.pushed j ++ ts) }

inductive Step (SHA1 : Bytes → Digest) : Flood ι → Event ι → Flood ι → Prop
  | submit {s : Flood ι} {j : ι} {t : Transaction} :
      Step SHA1 s (.submit j t) { s.push j [t] with submitted := s.submitted ++ [t] }
  | deliver {s : Flood ι} {j k : ι} {t : Transaction} :
      (k, t) ∈ s.broadcasts → Step SHA1 s (.deliver j t) (s.push j [t])
  | process {s : Flood ι} {j : ι} {i : Input} {effects : List Effect} {th : Thread} :
      (∀ t, i = .transaction t → t ∈ s.pushed j) →
      Thread.Step SHA1 (s.threads j) (i, effects) th →
      Step SHA1 s (.process j i effects)
        { s.push j (pushes effects) with
          threads := Function.update s.threads j th
          broadcasts := s.broadcasts ++ (announced effects).map (j, ·) }

/-- The voters whose votes were submitted. -/
def voters (s : Flood ι) : Finset Bytes := (s.submitted.map (·.senderPublicKey)).toFinset

/-- The step of a miner, if it is one, starts no new working block. -/
def NoReset (SHA1 : Bytes → Digest) (m : Move (Flood ι) (Event ι)) : Prop :=
  ∀ j i effects, m.label = .process j i effects → (m.pre.threads j).resets SHA1 i = false

/-- Only submitted voters travel, and each miner's working block holds whom it
announced. -/
structure Remembers (s : Flood ι) : Prop where
  wellFormed : ∀ j, (s.threads j).WellFormed
  pushed : ∀ j, ∀ t ∈ s.pushed j, t.senderPublicKey ∈ s.voters
  broadcasts : ∀ p ∈ s.broadcasts, p.2.senderPublicKey ∈ s.voters
  remembered : ∀ p ∈ s.broadcasts, p.2.senderPublicKey ∈ (s.threads p.1).newBlock.senders
  once : (s.broadcasts.map fun p => (p.1, p.2.senderPublicKey)).Nodup

end Flood

def flood (ι : Type*) [DecidableEq ι] (SHA1 : Bytes → Digest) (tail : GenesisTail) :
    TransitionSystem (Flood ι) (Flood.Event ι) where
  init s := s = .initial tail
  step := Flood.Step SHA1

namespace Flood

variable {ι : Type*} [DecidableEq ι] {SHA1 : Bytes → Digest}

omit [DecidableEq ι] in
theorem initial_remembers (tail : GenesisTail) : (initial tail : Flood ι).Remembers where
  wellFormed := fun _ => Thread.initial_wellFormed tail
  pushed := by simp [initial]
  broadcasts := by simp [initial]
  remembered := by simp [initial]
  once := List.nodup_nil

theorem mem_pushed_push {s : Flood ι} {j k : ι} {ts : List Transaction} {t : Transaction}
    (h : t ∈ (s.push j ts).pushed k) : t ∈ s.pushed k ∨ t ∈ ts := by
  simp only [push] at h
  by_cases hk : k = j
  · subst hk
    rw [Function.update_self, List.mem_append] at h
    exact h
  · rw [Function.update_of_ne hk] at h
    exact .inl h

/-- What a miner announces without a reset joins its working block. -/
theorem Remembers.announced {s : Flood ι} (h : s.Remembers) {j : ι} {th : Thread}
    {ts : List Transaction} (hw : th.WellFormed)
    (hsenders : th.newBlock.senders =
      (s.threads j).newBlock.senders ++ ts.map (·.senderPublicKey)) :
    (∀ p ∈ s.broadcasts ++ ts.map (j, ·),
        p.2.senderPublicKey ∈ (Function.update s.threads j th p.1).newBlock.senders) ∧
      ((s.broadcasts ++ ts.map (j, ·)).map fun p => (p.1, p.2.senderPublicKey)).Nodup := by
  have hnodup := hw.filling.nodup
  rw [hsenders, List.nodup_append'] at hnodup
  obtain ⟨-, hnew, hdisjoint⟩ := hnodup
  constructor
  · intro p hp
    rcases List.mem_append.1 hp with hp | hp
    · by_cases hj : p.1 = j
      · rw [hj, Function.update_self, hsenders]
        exact List.mem_append_left _ (hj ▸ h.remembered p hp)
      · rw [Function.update_of_ne hj]
        exact h.remembered p hp
    · obtain ⟨t, ht, rfl⟩ := List.mem_map.1 hp
      rw [Function.update_self, hsenders]
      exact List.mem_append_right _ (List.mem_map.2 ⟨t, ht, rfl⟩)
  · rw [List.map_append, List.nodup_append', List.map_map]
    refine ⟨h.once, ?_, ?_⟩
    · have hpairs : (ts.map (·.senderPublicKey)).map (j, ·) =
          ts.map ((fun p : ι × Transaction => (p.1, p.2.senderPublicKey)) ∘ (j, ·)) := by
        rw [List.map_map]
        rfl
      rw [← hpairs]
      exact hnew.map (Prod.mk_right_injective j)
    · -- a voter announced before is in the working block, where the new ones are not
      intro p hp hp'
      obtain ⟨q, hq, rfl⟩ := List.mem_map.1 hp
      obtain ⟨t, ht, heq⟩ := List.mem_map.1 hp'
      obtain ⟨hj, hkey⟩ := Prod.mk.inj heq
      have hmem := h.remembered q hq
      rw [← hj, ← hkey] at hmem
      exact hdisjoint hmem (List.mem_map.2 ⟨t, ht, rfl⟩)

theorem Step.remembers {s s' : Flood ι} {e : Event ι} (hs : Step SHA1 s e s')
    (hno : NoReset SHA1 ⟨s, e, s'⟩) (h : s.Remembers) : s'.Remembers := by
  cases hs with
  | @submit j t =>
      have hmono : s.voters ⊆
          ({ s.push j [t] with submitted := s.submitted ++ [t] } : Flood ι).voters := by
        simp [voters]
      refine ⟨h.wellFormed, ?_, fun p hp => hmono (h.broadcasts p hp), h.remembered, h.once⟩
      intro k u hu
      rcases mem_pushed_push hu with hu | hu
      · exact hmono (h.pushed k u hu)
      · obtain rfl := List.mem_singleton.1 hu
        simp [voters]
  | deliver hsent =>
      refine ⟨h.wellFormed, ?_, h.broadcasts, h.remembered, h.once⟩
      intro k u hu
      rcases mem_pushed_push hu with hu | hu
      · exact h.pushed k u hu
      · obtain rfl := List.mem_singleton.1 hu
        exact h.broadcasts _ hsent
  | @process j i effects th htaken hstep =>
      have hw : ∀ k, (Function.update s.threads j th k).WellFormed := by
        intro k
        by_cases hk : k = j
        · subst hk
          rw [Function.update_self]
          exact (h.wellFormed k).change hstep.change
        · rw [Function.update_of_ne hk]
          exact h.wellFormed k
      -- without a reset what is announced is new in the working block, and stays there
      have hreset := hno j i effects rfl
      rcases hstep.announced_cases (h.wellFormed j) with ⟨hreset', -⟩ | ⟨-, hnone, htook, hsenders⟩
      · cases hreset'.symm.trans hreset
      have hwj : th.WellFormed := (h.wellFormed j).change hstep.change
      obtain ⟨hremembered, honce⟩ := h.announced hwj hsenders
      refine ⟨hw, ?_, ?_, hremembered, honce⟩
      · intro k u hu
        rw [hnone] at hu
        rcases mem_pushed_push hu with hu | hu
        · exact h.pushed k u hu
        · cases hu
      · intro p hp
        rcases List.mem_append.1 hp with hp | hp
        · exact h.broadcasts p hp
        · obtain ⟨t, ht, rfl⟩ := List.mem_map.1 hp
          exact h.pushed j t (htaken t (htook t ht))

/-- Without resets, the pairs of a miner and a voter bound the broadcasts. -/
theorem Remembers.length_broadcasts_le [Fintype ι] {s : Flood ι} (h : s.Remembers) :
    s.broadcasts.length ≤ Fintype.card ι * s.voters.card := by
  have hsub : (s.broadcasts.map fun p => (p.1, p.2.senderPublicKey)).toFinset ⊆
      Finset.univ ×ˢ s.voters := by
    intro q hq
    obtain ⟨p, hp, rfl⟩ := List.mem_map.1 (List.mem_toFinset.1 hq)
    exact Finset.mem_product.2 ⟨Finset.mem_univ _, h.broadcasts p hp⟩
  calc s.broadcasts.length
      = (s.broadcasts.map fun p => (p.1, p.2.senderPublicKey)).toFinset.card := by
        rw [List.toFinset_card_of_nodup h.once, List.length_map]
    _ ≤ (Finset.univ ×ˢ s.voters).card := Finset.card_le_card hsub
    _ = Fintype.card ι * s.voters.card := by rw [Finset.card_product, Finset.card_univ]

end Flood

/-- A miner announces a voter at most once and once more for each reset, and in
a network without resets the submitted votes cause finitely many broadcasts. -/
theorem gossip_bounded (ι : Type*) [Fintype ι] [DecidableEq ι] (SHA1 : Bytes → Digest)
    (tail : GenesisTail) :
    (∀ tr th, (processingThread SHA1 tail).Run (.initial tail) tr th →
      ∀ k, Thread.announcements tr k ≤ 1 + Thread.resetsIn SHA1 tr) ∧
    ∀ tr s, (flood ι SHA1 tail).Run (.initial tail) tr s → (∀ m ∈ tr, Flood.NoReset SHA1 m) →
      s.broadcasts.length ≤ Fintype.card ι * s.voters.card := by
  constructor
  · intro tr th h k
    have hw : th.WellFormed := (Thread.wellFormed_invariant SHA1 tail).preserved.run h
      (Thread.initial_wellFormed tail) (by simp)
    have honce := List.nodup_iff_count_le_one.1 hw.filling.nodup k
    have hle := Thread.announcements_le_count h k
    omega
  · intro tr s h hno
    have hpres : (flood ι SHA1 tail).PreservedUnder (Flood.NoReset SHA1) Flood.Remembers :=
      fun _ _ _ hstep hm hs => Flood.Step.remembers hstep hm hs
    exact (hpres.run h (Flood.initial_remembers tail) hno).length_broadcasts_le

/-- A vote goes from one miner to another, and is thrown out when it comes back. -/
theorem gossip_bounded_returned :
    ∃ tr s, (flood Bool Block.sampleSHA1 Blockchain.sampleTail).Run
        (.initial Blockchain.sampleTail) tr s ∧
      s.broadcasts = [(false, .sample 1), (true, .sample 1)] ∧
      s.broadcasts.length ≤ Fintype.card Bool * s.voters.card := by
  obtain ⟨th, htake, hpoint, hagain⟩ : ∃ th : Thread,
      (⟨.new Blockchain.sampleTail, .new, false, .pop⟩ : Thread).takeTransaction (.sample 1) =
        .ok (th, [.broadcastTransaction (.sample 1)]) ∧ th.point = .head ∧
      ({ th with point := th.afterBlock } : Thread).takeTransaction (.sample 1) =
        .ok (th, []) := ⟨_, rfl, rfl, rfl⟩
  have hwaits : (⟨th.bc, th.newBlock, th.quotafull, th.afterBlock⟩ : Thread).point = .pop := by
    cases htake
    rfl
  have hrun := TransitionSystem.Run.nil (L := flood Bool Block.sampleSHA1 Blockchain.sampleTail)
      (s := .initial Blockchain.sampleTail)
    |>.snoc (@Flood.Step.submit Bool _ _ _ false (.sample 1))
    |>.snoc (@Flood.Step.process Bool _ _ _ false (.block none .alone) _ _
      (fun t h => nomatch h) (.idle rfl))
    |>.snoc (@Flood.Step.process Bool _ _ _ false (.transaction (.sample 1)) _ _
      (by rintro t ⟨⟩; exact List.mem_cons_self) (.transaction rfl htake))
    |>.snoc (@Flood.Step.deliver Bool _ _ _ true false (.sample 1) List.mem_cons_self)
    |>.snoc (@Flood.Step.process Bool _ _ _ true (.block none .alone) _ _
      (fun t h => nomatch h) (.idle rfl))
    |>.snoc (@Flood.Step.process Bool _ _ _ true (.transaction (.sample 1)) _ _
      (by rintro t ⟨⟩; exact List.mem_cons_self) (.transaction rfl htake))
    |>.snoc (@Flood.Step.deliver Bool _ _ _ false true (.sample 1)
      (List.mem_cons_of_mem _ List.mem_cons_self))
    |>.snoc (@Flood.Step.process Bool _ _ _ false (.block none .alone) _ _
      (fun t h => nomatch h) (.idle hpoint))
    |>.snoc (@Flood.Step.process Bool _ _ _ false (.transaction (.sample 1)) _ _
      (by rintro t ⟨⟩; exact List.mem_cons_self) (.transaction hwaits hagain))
  refine ⟨_, _, hrun, rfl, (gossip_bounded Bool _ _).2 _ _ hrun ?_⟩
  simp only [List.forall_mem_append, List.forall_mem_singleton]
  simp [Flood.NoReset, Thread.resets]

end OneVote
