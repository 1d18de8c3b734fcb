import DurableFlow.Proofs.Positions.StoredPositions
import DurableFlow.Proofs.Histories.Rounds
import Mathlib.Data.Multiset.AddSub

/-!
# Accounts of an engine

An account of an engine forgets the order of its tasks and of its frames. It keeps the positions of
the instances, the chains with their phases and with who is told when they stop, the completions
that calls still wait for, and the settlements. An account changes by one chain at a time
(`Account.Step`); what a chain does there is what it can do (`Goes`).

That an engine goes through these changes, and does the deeds that they stand for, is shown in
`DurableFlow.Proofs.Soundness.Simulation`.
-/

namespace DurableFlow

/-- A chain on its way, and who is told when it stops. -/
structure Strand where
  origin : Origin
  chain : Chain
  phase : Phase

/-- The strand that a frame takes on. -/
def Frame.strand? : Frame → Option Strand
  | .driving origin chain stage => some ⟨origin, chain, stage.phase⟩
  | _ => none

/-- The completion that a frame waits for on behalf of a call. -/
def Frame.awaited? : Frame → Option CompletionId
  | .receiving _ c => some c
  | _ => none

/-- The strand that rests until a timer goes off. -/
def Timer.strand (t : Timer Continuation) : Strand :=
  ⟨.continuation, t.work.chain, .resting t.work.next⟩

/-- What there is to an engine, its tasks aside. -/
structure Account where
  position : String → Nat
  strands : Multiset Strand
  /-- The completions that calls wait for whose chains run no longer in their task. -/
  waiting : Multiset CompletionId
  settled : CompletionId → Option Settlement
  /-- No completion of that number or above has been made. -/
  next : Nat

/-- The account of an engine with some frames in place of those of its tasks. -/
def Engine.accountOf (e : Engine) (frames : List Frame) : Account where
  position := e.position
  strands := (frames.filterMap Frame.strand? : List Strand) +
    (e.scheduler.timers.armed.map Timer.strand : List Strand)
  waiting := (frames.filterMap Frame.awaited? : List CompletionId)
  settled := e.settled.get?
  next := e.next

/-- All frames of an engine. -/
def Engine.frames (e : Engine) : List Frame := e.tasks.flatMap Task.frames

/-- The account of an engine. -/
def Engine.account (e : Engine) : Account := e.accountOf e.frames

namespace Account

/-- The settlements once a completion has been settled. -/
def settle (A : Account) : Option CompletionId → Settlement → CompletionId → Option Settlement
  | some k, s => Function.update A.settled k (some s)
  | none, _ => A.settled

/-- What a caller is told when its chain is stopped by a fault. -/
def haltReply (A : Account) (k : CompletionId) (fault : Fault) : Option Reply :=
  some (.settled ((A.settled k).getD (.error (.fault fault))))

/-- Who is told at once when a chain stops, and what. -/
def told (reply : CompletionId → Option Reply) (o : Origin) : List (CompletionId × Option Reply) :=
  o.receiver?.toList.map fun k => (k, reply k)

variable (S : Standard)

/-- A run begins: a chain of a fresh number and completion starts at the position of its
instance. -/
inductive Starts (A : Account) : List (Chain × Deed) → Account → Prop
  | start {q : Request} {r : RunnerId} {c : Chain} {i : Nat} (hq : S.request q)
      (hd : S.definition c.definition) (hi : q.IsLoyal → i = A.position c.inst)
      (hc : c.completion = none ∨ c.completion = some ⟨A.next⟩) (hn : c.number = A.next) :
      Starts A [(c, .started i)] { A with
        strands := ⟨.call r c.completion, c, .entering i⟩ ::ₘ A.strands
        next := A.next + 1 }

/-- One change of an account, with the deeds that are done and what callers are told. -/
inductive Step :
    Account → List (Chain × Deed) → List (CompletionId × Option Reply) → Account → Prop
  | number {A n} (h : A.next ≤ n) : Step A [] [] { A with next := n }
  | go {A o c φ ds p c' φ' R} (h : A.strands = ⟨o, c, φ⟩ ::ₘ R) (hd : S.definition c.definition)
      (hgo : Goes (A.position c.inst) c φ ds p c' φ') (hc : c'.completion = c.completion)
      (hφ : ∀ next, φ' ≠ .resting next) :
      Step A (ds.map (c, ·)) [] { A with
        position := Function.update A.position c.inst p
        strands := ⟨o, c', φ'⟩ ::ₘ R }
  | settle {A o c s es turn R} (h : A.strands = ⟨o, c, .acting ⟨.settle s :: es, turn⟩⟩ ::ₘ R)
      (hd : S.definition c.definition) :
      Step A [(c, .settled s)] [] { A with
        strands := ⟨o, { c with completion := none }, .acting ⟨es, turn⟩⟩ ::ₘ R
        settled := A.settle c.completion s }
  | suspend {A o c next due R} (h : A.strands = ⟨o, c, .acting ⟨[], .suspend next due⟩⟩ ::ₘ R)
      (hd : S.definition c.definition) :
      Step A [(c, .suspended next)] [] { A with
        strands := ⟨.continuation, c, .resting next⟩ ::ₘ R
        waiting := o.receiver?.toList + A.waiting }
  | stop {A o c result R} (h : A.strands = ⟨o, c, .acting ⟨[], .stop result⟩⟩ ::ₘ R) :
      Step A [(c, .stopped result)] [] { A with
        strands := R
        waiting := o.receiver?.toList + A.waiting }
  | haltCall {A o c f R} (h : A.strands = ⟨o, c, .halting f⟩ ::ₘ R) (ho : o ≠ .continuation) :
      Step A [(c, .halted f)] (told (A.haltReply · f) o) { A with strands := R }
  | haltContinuation {A c f R} (h : A.strands = ⟨.continuation, c, .halting f⟩ ::ₘ R) :
      Step A [(c, .halted f)] [] { A with
        strands := R
        settled := A.settle c.completion (.error (.fault f)) }
  | panic {A o c i p R} (h : A.strands = ⟨o, c, .within i⟩ ::ₘ R) :
      Step A [(c, .panicked)] (told (fun _ => some (.panicked p)) o) { A with strands := R }
  | lose {A o c φ R} (h : A.strands = ⟨o, c, φ⟩ ::ₘ R) :
      Step A [(c, .lost)] (told (fun _ => none) o) { A with strands := R }
  | drop {A c next R} (h : A.strands = ⟨.continuation, c, .resting next⟩ ::ₘ R) :
      Step A [(c, .dropped)] [] { A with strands := R }
  /-- A call that waits is cut off. -/
  | forget {A k W} (h : A.waiting = k ::ₘ W) : Step A [] [(k, none)] { A with waiting := W }
  | tell {A k s W} (h : A.waiting = k ::ₘ W) (hs : A.settled k = some s) :
      Step A [] [(k, some (.settled s))] { A with waiting := W }
  /-- The chain that owed the completion is no more. -/
  | tellBroken {A k W} (h : A.waiting = k ::ₘ W) (hs : A.settled k = none)
      (hR : ∀ s ∈ A.strands, s.chain.completion ≠ some k) :
      Step A [] [(k, some (.settled (.error (.fault .cancelled))))] { A with waiting := W }

/-- Changes of an account, one after the other. -/
inductive Steps :
    Account → List (Chain × Deed) → List (CompletionId × Option Reply) → Account → Prop
  | refl {A} : Steps A [] [] A
  | tail {A B C ds ds' ts ts'} (h : Steps A ds ts B) (hs : Step S B ds' ts' C) :
      Steps A (ds ++ ds') (ts ++ ts') C

/-- What may happen to an account at one time: a run begins, or chains that are there go on. -/
inductive Passes (A : Account) (ds : List (Chain × Deed)) (ts : List (CompletionId × Option Reply))
    (B : Account) : Prop
  | start (h : Starts S A ds B) (hts : ts = [])
  | steps (h : Steps S A ds ts B)

variable {S} {A B C : Account} {ds ds' : List (Chain × Deed)}
  {ts ts' : List (CompletionId × Option Reply)}

theorem Step.steps (h : Step S A ds ts B) : Steps S A ds ts B := .tail .refl h

/-- No completion is made anew. -/
theorem Step.next_le (h : Step S A ds ts B) : A.next ≤ B.next := by
  cases h with
  | number h => exact h
  | _ => exact le_rfl

theorem Steps.trans (h : Steps S A ds ts B) (h' : Steps S B ds' ts' C) :
    Steps S A (ds ++ ds') (ts ++ ts') C := by
  induction h' with
  | refl => simpa using h
  | tail _ hs ih =>
    rw [← List.append_assoc, ← List.append_assoc]
    exact ih.tail hs

end Account

end DurableFlow
