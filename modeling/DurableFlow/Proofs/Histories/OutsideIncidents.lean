import DurableFlow.Proofs.Histories.ChainLives

/-!
# Incidents from outside

An engine is not alone in the world. Others may write to its store at any time, and a chain may be
driven without a runner, from whatever position its caller names. An incident is an act of the
engine or one of these two. Chains may thus start at any position: at one that was written from
outside, at one that was saved for a longer definition, or at one that a caller made up.

The ledger of some incidents lists what was done for chains by them, as the chronicle of a history
does for its acts.

Main statements: whatever happens, an engine stays sound (`Engine.Sound.through`), what is done
under a number is the life of one chain (`Engine.IsNew.lives_through`), and a lasting property that
chains have when they start stays with them (`Engine.Sound.keeps_through`).
-/

namespace DurableFlow

/-- What may happen to an engine and its surroundings. -/
inductive Incident
  | act (a : Act)
  /-- The store is written from outside. -/
  | write (f : Store → Store)
  /-- A chain is driven from a position, without a runner. -/
  | dispatch (token : Token) (chain : Chain) (start : Nat)

/-- What comes from outside is up to a standard. -/
def Incident.Meets (S : Standard) : Incident → Prop
  | .act a => a.Meets S
  | .write _ => True
  | .dispatch _ chain _ => S.definition chain.definition

theorem Incident.meets_any (i : Incident) : i.Meets .any := by
  cases i with
  | act a => exact a.meets_any
  | write f => trivial
  | dispatch token chain start => trivial

namespace Engine

/-- The engine after an incident; a chain that is driven draws a number like one that is run. -/
def incur (e : Engine) : Incident → Engine
  | .act a => e.act a
  | .write f => { e with store := f e.store }
  | .dispatch token chain start => (e.startDispatch token { chain with number := e.next } start).2

/-- What is done for chains by an incident. -/
def upon (e : Engine) : Incident → List (Chain × Deed)
  | .act a => e.deeds a
  | .write _ => []
  | .dispatch _ chain start => [({ chain with number := e.next }, .started start)]

/-- The engine after some incidents. -/
def through (e : Engine) (is : List Incident) : Engine := is.foldl incur e

/-- What is done for chains in the course of some incidents. -/
def ledger (e : Engine) : List Incident → List (Chain × Deed)
  | [] => []
  | i :: is => e.upon i ++ (e.incur i).ledger is

@[simp] theorem through_nil (e : Engine) : e.through [] = e := rfl

theorem through_append (e : Engine) (is js : List Incident) :
    e.through (is ++ js) = (e.through is).through js :=
  List.foldl_append

theorem through_concat (e : Engine) (is : List Incident) (i : Incident) :
    e.through (is ++ [i]) = (e.through is).incur i := by
  simp [through]

theorem ledger_append (e : Engine) (is js : List Incident) :
    e.ledger (is ++ js) = e.ledger is ++ (e.through is).ledger js := by
  induction is generalizing e with
  | nil => rfl
  | cons i is ih =>
    rw [List.cons_append, ledger, ih, ← List.append_assoc]
    rfl

theorem ledger_concat (e : Engine) (is : List Incident) (i : Incident) :
    e.ledger (is ++ [i]) = e.ledger is ++ (e.through is).upon i := by
  rw [ledger_append, ledger, ledger, List.append_nil]

/-- What is done by one of some incidents is done in the course of them. -/
theorem mem_ledger {e : Engine} {before : List Incident} {i : Incident} {s : Chain × Deed}
    (hs : s ∈ (e.through before).upon i) (after : List Incident) :
    s ∈ e.ledger (before ++ i :: after) := by
  rw [ledger_append]
  exact List.mem_append_right _ (List.mem_append_left _ hs)

end Engine

/-! ## Accounts upon incidents -/

namespace Account

/-- What becomes of the chains of an account when something happens: nothing, a chain joins them, or
they go on. -/
inductive Happens (S : Standard) (A : Account) : List (Chain × Deed) → Account → Prop
  | still {B} (hpairs : B.pairs = A.pairs) (hnext : B.next = A.next) : Happens S A [] B
  | join {B c p} (hn : c.number = A.next) (hpairs : B.pairs = (c, .entering p) ::ₘ A.pairs)
      (hnext : B.next = A.next + 1) : Happens S A [(c, .started p)] B
  | goes {ds ts B} (h : Steps S A ds ts B) : Happens S A ds B

variable {S : Standard} {A B : Account} {l ds : List (Chain × Deed)}
  {ts : List (CompletionId × Option Reply)} {P : Chain → Phase → Prop}

theorem Passes.happens (h : Passes S A ds ts B) : Happens S A ds B := by
  cases h with
  | start hstarts _ =>
    cases hstarts with
    | start hq hd hi hc hn => exact .join hn (Multiset.map_cons ..) rfl
  | steps hsteps => exact .goes hsteps

theorem Lives.happens (h : A.Lives l) (hhappens : Happens S A ds B) : B.Lives (l ++ ds) := by
  cases hhappens with
  | still hpairs hnext =>
    rw [List.append_nil]
    refine ⟨?_, ?_, ?_⟩
    · rw [hpairs, hnext]; exact h.pairs
    · rw [hnext]; exact h.deeds
    · rw [hpairs]; exact h.life
  | join hn hpairs hnext => exact h.join hn hpairs hnext
  | goes hsteps => exact h.steps hsteps

theorem Steps.keeps (h : Steps S A ds ts B) (hP : Lasting S P) (hA : ∀ s ∈ A.pairs, P s.1 s.2) :
    (∀ s ∈ B.pairs, P s.1 s.2) ∧ ∀ x ∈ ds, ∃ i φ, P x.1 φ ∧ Occurs i (some (x.1, φ)) x.2 := by
  induction h with
  | refl => exact ⟨hA, by simp⟩
  | tail _ hstep ih =>
    obtain ⟨hB, hds⟩ := ih
    obtain ⟨hC, hds'⟩ := hstep.changes.keeps hP hB
    exact ⟨hC, fun x hx => (List.mem_append.1 hx).elim (hds x) (hds' x)⟩

/-- **A lasting property that chains have when they start stays with them**, and those that do
something afterwards have it then. -/
theorem Happens.keeps (h : Happens S A ds B) (hP : Lasting S P)
    (hstart : ∀ c p, (c, .started p) ∈ ds → P c (.entering p)) (hA : ∀ s ∈ A.pairs, P s.1 s.2) :
    (∀ s ∈ B.pairs, P s.1 s.2) ∧
      ∀ x ∈ ds, (∃ p, x.2 = .started p) ∨ ∃ i φ, P x.1 φ ∧ Occurs i (some (x.1, φ)) x.2 := by
  cases h with
  | still hpairs _ => exact ⟨hpairs ▸ hA, by simp⟩
  | @join _ c p _ hpairs _ =>
    refine ⟨fun s hs => ?_, fun x hx => .inl ⟨p, ?_⟩⟩
    · rw [hpairs] at hs
      rcases Multiset.mem_cons.1 hs with rfl | hs
      · exact hstart c p (List.mem_singleton_self _)
      · exact hA s hs
    · rw [List.mem_singleton.1 hx]
  | goes hsteps =>
    obtain ⟨hB, hds⟩ := hsteps.keeps hP hA
    exact ⟨hB, fun x hx => .inr (hds x hx)⟩

end Account

/-! ## Engines through incidents -/

namespace Engine

variable {S : Standard} {e : Engine} {is : List Incident} {P : Chain → Phase → Prop}

/-- **Whatever happens to a sound engine leaves it sound**, and its chains go on as chains do. -/
theorem Sound.incur (h : e.Sound S) {i : Incident} (hi : i.Meets S) :
    (e.incur i).Sound S ∧ Account.Happens S e.account (e.upon i) (e.incur i).account := by
  cases i with
  | act a =>
    obtain ⟨hsound, hpasses⟩ := h.act hi
    exact ⟨hsound, hpasses.happens⟩
  | write f => exact ⟨h.congr rfl le_rfl rfl rfl, .still rfl rfl⟩
  | dispatch token chain start =>
    have haccount : (e.incur (.dispatch token chain start)).account =
        (e.incur (.dispatch token chain start)).accountOf
          (.driving .direct { chain with number := e.next } (.entering start) :: e.frames) :=
      account_of_tasks rfl
    refine ⟨h.spawn token ⟨hi, trivial⟩, .join rfl ?_ rfl⟩
    rw [haccount]
    rfl

theorem Sound.through (h : e.Sound S) (his : ∀ i ∈ is, i.Meets S) : (e.through is).Sound S := by
  induction is generalizing e with
  | nil => exact h
  | cons i is ih =>
    exact ih (h.incur (his i List.mem_cons_self)).1 fun j hj => his j (List.mem_cons_of_mem _ hj)

/-- **What has been done under each number is the life of a chain**, whatever happens. -/
theorem IsNew.lives_through (h : e.IsNew) (is : List Incident) :
    (e.through is).account.Lives (e.ledger is) := by
  induction is using List.reverseRecOn with
  | nil => exact h.lives []
  | append_singleton is i ih =>
    have hsound : (e.through is).Sound .any := (h.sound .any).through fun j _ => j.meets_any
    rw [ledger_concat, through_concat]
    exact ih.happens (hsound.incur i.meets_any).2

/-- **A lasting property that chains have when they start stays with them throughout.** -/
theorem Sound.keeps_through (h : e.Sound S) (his : ∀ i ∈ is, i.Meets S)
    (hP : Account.Lasting S P) (hpairs : ∀ s ∈ e.account.pairs, P s.1 s.2)
    (hstart : ∀ c p, (c, .started p) ∈ e.ledger is → P c (.entering p)) :
    (∀ s ∈ (e.through is).account.pairs, P s.1 s.2) ∧ ∀ x ∈ e.ledger is,
      (∃ p, x.2 = .started p) ∨ ∃ i φ, P x.1 φ ∧ Occurs i (some (x.1, φ)) x.2 := by
  induction is using List.reverseRecOn with
  | nil => exact ⟨hpairs, by simp [ledger]⟩
  | append_singleton is i ih =>
    rw [ledger_concat] at hstart
    have hbefore : ∀ j ∈ is, j.Meets S := fun j hj => his j (List.mem_append_left _ hj)
    have hi : i.Meets S := his i (List.mem_append_right _ List.mem_cons_self)
    obtain ⟨hkept, hdone⟩ :=
      ih hbefore fun c p hc => hstart c p (List.mem_append_left _ hc)
    obtain ⟨hkept', hdone'⟩ := ((h.through hbefore).incur hi).2.keeps hP
      (fun c p hc => hstart c p (List.mem_append_right _ hc)) hkept
    rw [ledger_concat, through_concat]
    exact ⟨hkept', fun x hx => (List.mem_append.1 hx).elim (hdone x) (hdone' x)⟩

end Engine

end DurableFlow
