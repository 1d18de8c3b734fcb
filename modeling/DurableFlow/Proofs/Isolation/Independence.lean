import DurableFlow.Proofs.Isolation.MirroredActs
import Mathlib.Data.List.Infix

/-!
# Independence of instances

Instances that are run by one engine do not interfere with each other. If throughout a history of a
new engine the instances of a family are not those of others, then what is done for them is what
would be done in an engine that they have to themselves, in which their timers go off and their
delays are cancelled as they are here (`Engine.KeepsApart.independent`). In particular, whatever
others do, no live continuation of the family is lost (`Engine.Spares`).
-/

namespace DurableFlow

namespace Engine

variable {own : Nat → Bool} {ids : String → Bool} {voice : Nat → String} {others : Nat}
  {m e e' : Engine} {a : Act}

/-! ## Histories -/

theorem echoes_append (own : Nat → Bool) (ids : String → Bool) (e e' : Engine) (as bs : List Act) :
    e.echoes own ids e' (as ++ bs) = e.echoes own ids e' as ++
      (e.after as).echoes own ids (e'.after (e.echoes own ids e' as)) bs := by
  induction as generalizing e e' with
  | nil => rfl
  | cons a as ih =>
    rw [List.cons_append, echoes, echoes, ih, after_cons, after_append, List.append_assoc]

theorem echoes_concat (own : Nat → Bool) (ids : String → Bool) (e e' : Engine) (as : List Act)
    (a : Act) :
    e.echoes own ids e' (as ++ [a]) = e.echoes own ids e' as ++
      (e.after as).echo own ids (e'.after (e.echoes own ids e' as)) a := by
  rw [echoes_append, echoes, echoes, List.append_nil]

theorem filter_echoes (own : Nat → Bool) (ids : String → Bool) (e e' : Engine) (as : List Act) :
    ((e.echoes own ids e' as).filter (Act.isFor (fun _ => true) fun _ => true)) =
      as.filter (Act.isFor own ids) := by
  induction as generalizing e e' with
  | nil => rfl
  | cons a as ih =>
    rw [echoes, List.filter_append, ih, filter_echo, ← List.filter_append, List.singleton_append]

theorem voices_append (own : Nat → Bool) (e : Engine) (as bs : List Act) :
    e.voices own (as ++ bs) = e.voices own as ++ (e.after as).voices own bs := by
  induction as generalizing e with
  | nil => rfl
  | cons a as ih => rw [List.cons_append, voices, voices, ih, after_cons, List.append_assoc]

/-- What is done by a turn is done for a chain that was there before, or is there then. -/
theorem Turns.mem_chain {t : Task} {ds : List (Chain × Deed)}
    {rested : Option (Timer Continuation)} {frames : List Frame} {c : Chain} {d : Deed}
    (h : e.Turns t ds rested frames) (hd : (c, d) ∈ ds) : ∃ f ∈ t.frames ++ frames, c ∈ f.chain? := by
  cases h with
  | look _ => cases hd
  | @abandon fs o c' stage hf _ _ _ =>
    obtain ⟨c'', hc, heq⟩ := List.mem_map.1 hd
    cases heq
    obtain ⟨f, hmem, hchain⟩ := List.mem_filterMap.1 hc
    exact ⟨f, List.mem_append_left _ (hf ▸ List.mem_append_left _ hmem), hchain⟩
  | decline _ => cases hd
  | start _ _ _ =>
    cases List.mem_singleton.1 hd
    exact ⟨_, List.mem_append_right _ List.mem_cons_self, rfl⟩
  | stay _ _ => cases hd
  | launch _ => cases hd
  | go hf _ _ _ _ =>
    obtain ⟨d', -, heq⟩ := Option.map_eq_some_iff.1 (Option.mem_toList.1 hd)
    cases heq
    exact ⟨_, List.mem_append_left _ (hf ▸ List.mem_cons_self), rfl⟩
  | rest hf =>
    cases List.mem_singleton.1 hd
    exact ⟨_, List.mem_append_left _ (hf ▸ List.mem_cons_self), rfl⟩
  | stop hf =>
    cases List.mem_singleton.1 hd
    exact ⟨_, List.mem_append_left _ (hf ▸ List.mem_cons_self), rfl⟩
  | halt hf =>
    cases List.mem_singleton.1 hd
    exact ⟨_, List.mem_append_left _ (hf ▸ List.mem_cons_self), rfl⟩
  | panic hf =>
    cases List.mem_singleton.1 hd
    exact ⟨_, List.mem_append_left _ (hf ▸ List.mem_cons_self), rfl⟩
  | receive _ => cases hd

/-- What is done for a chain is done for an instance of the family if it is done for the family. -/
theorem IsApart.inst_eq {c : Chain} {d : Deed} (h : e.IsApart own ids) (hsound : e.Sound .any)
    (h' : (e.act a).IsApart own ids) (hd : (c, d) ∈ e.deeds a) :
    ids c.inst = e.concerns own a := by
  cases a with
  | advance n =>
    simp only [deeds] at hd
    split at hd
    · rename_i t ht
      obtain ⟨hmem, rfl⟩ := task?_eq_some ht
      have hturned := turned_move (e := e) (hsound.tasks t hmem)
      cases hM : e.move t with
      | blocked =>
        rw [hM] at hturned
        rw [hturned.1] at hd
        cases hd
      | on e₁ t' =>
        rw [hM] at hturned
        obtain ⟨rested, woken, -, hturns, hnumber, -⟩ := hturned
        have hmem' := (hsound.mem_tasks_advance hmem hM).2
        obtain ⟨f, hf, hchain⟩ := hturns.mem_chain hd
        rcases List.mem_append.1 hf with hf | hf
        · exact h.chains t hmem f hf c hchain
        · exact (h'.chains t' hmem' f hf c hchain).trans (congrArg own hnumber)
      | «over» e₁ ending =>
        rw [hM] at hturned
        obtain ⟨rested, woken, -, hturns⟩ := hturned
        obtain ⟨f, hf, hchain⟩ := hturns.mem_chain hd
        exact h.chains t hmem f (by simpa using hf) c hchain
    · cases hd
  | drop place =>
    simp only [deeds] at hd
    cases hx : e.scheduler.timers.armed[place]? with
    | none => simp [hx] at hd
    | some x =>
      rw [hx] at hd
      cases List.mem_singleton.1 hd
      simp only [concerns, hx]
      exact h.resting x (List.mem_of_getElem? hx)
  | cut n =>
    simp only [deeds] at hd
    split at hd
    · rename_i t ht
      obtain ⟨hmem, rfl⟩ := task?_eq_some ht
      obtain ⟨c', hc, heq⟩ := List.mem_map.1 hd
      cases heq
      obtain ⟨f, hf, hchain⟩ := List.mem_filterMap.1 hc
      exact h.chains t hmem f hf c hchain
    · cases hd
  | _ => cases hd

theorem IsApart.filter_deeds (h : e.IsApart own ids) (hsound : e.Sound .any)
    (h' : (e.act a).IsApart own ids) :
    ((e.deeds a).filter fun d => ids d.1.inst) = if e.concerns own a then e.deeds a else [] := by
  have hinst := fun (d : Chain × Deed) (hd : d ∈ e.deeds a) => h.inst_eq hsound h' hd
  cases hconcerns : e.concerns own a with
  | true => exact List.filter_eq_self.2 fun d hd => (hinst d hd).trans hconcerns
  | false =>
    refine List.filter_eq_nil_iff.2 fun d hd => ?_
    rw [hinst d hd, hconcerns]
    exact Bool.false_ne_true

/-- What fails in an engine does not do so by the number of calls before. -/
structure IsSteady (e : Engine) : Prop where
  saves : ∀ n, e.store.failsSaveAt n = false
  loads : ∀ n, e.store.failsLoadAt n = false
  refuses : ∀ m n topic, e.refuses n topic = e.refuses m topic
  schedules : ∀ m n m' n', e.scheduler.refuses m' n' = e.scheduler.refuses m n

/-- The engine that a family has to itself: its continuations go off by hand, and the identities
that are made up are those that are made up for the family in the course of a history. -/
def alone (own : Nat → Bool) (e : Engine) (as : List Act) : Engine :=
  { e with
    scheduler := { e.scheduler with mode := e.scheduler.mode.byHand }
    identity := fun n => (e.voices own as).getD n ""
    identities := 0 }

/-- Throughout a history of a new engine, the instances of a family are not those of others. The
tasks of the family that are started from outside are started under its own tokens. -/
structure KeepsApart (own : Nat → Bool) (ids : String → Bool) (e : Engine) (as : List Act) :
    Prop where
  new : e.IsNew
  pending : e.pending = .empty
  steady : e.IsSteady
  hereditary : e.IsHereditary own as
  tokens : ∀ before a after token f, as = before ++ a :: after →
    a.opening? = some (token, f) → own (e.after before).next = true → token.isOwn own = true
  voices : ∀ x ∈ e.voices own as, ids x = true
  apart : ∀ as', as' <+: as → (e.after as').IsApart own ids

namespace KeepsApart

variable {as bs : List Act}

theorem isDivided (h : e.KeepsApart own ids (as ++ bs)) : (e.after as).IsDivided own ids where
  sound := (h.new.sound .any).after_any as
  marked := (h.new.sound .any).isMarked_after h.new.isMarked as
  numbers := h.new.nodup_numbers as
  kin := h.new.isKin h.hereditary.left fun before a after token f has =>
    h.tokens before a (after ++ bs) token f (by simp [has])
  apart := h.apart as (List.prefix_append as bs)

theorem mirrors_alone (h : e.KeepsApart own ids as) :
    e.Mirrors own ids (e.alone own as).identity e.identities (e.alone own as) where
  tasks := by
    show e.tasks = e.tasks.filter _
    rw [h.new.tasks, List.filter_nil]
  endings := rfl
  store := ⟨.refl ids _, h.steady.saves, h.steady.saves, h.steady.loads, h.steady.loads⟩
  scheduler := by
    refine ⟨?_, rfl, rfl, rfl, h.steady.schedules⟩
    show e.scheduler.timers.armed.Perm (e.scheduler.timers.armed.filter _)
    rw [h.new.armed, List.filter_nil]
  refuses := h.steady.refuses
  cancelled _ _ := rfl
  settled _ _ := rfl
  delays := by
    show Delays.Mirrors own ids _ e.pending.get? e.pending.get?
    rw [h.pending]
    exact ⟨fun _ _ _ _ _ => Iff.rfl, fun _ _ _ => nofun, fun _ _ _ => nofun⟩
  gates := rfl
  runners := rfl
  held := rfl
  next := rfl
  identity := rfl
  identities := (Nat.zero_add _).symm

/-- **The engine of the family mirrors it throughout.** -/
theorem mirrors (h : e.KeepsApart own ids as) {before after : List Act}
    (has : as = before ++ after) :
    ∃ others, (e.after before).Mirrors own ids (e.alone own as).identity others
        ((e.alone own as).after (e.echoes own ids (e.alone own as) before)) ∧
      ((e.alone own as).after (e.echoes own ids (e.alone own as) before)).identities =
        (e.voices own before).length ∧
      (e.alone own as).chronicle (e.echoes own ids (e.alone own as) before) =
        (e.chronicle before).filter fun d => ids d.1.inst := by
  induction before using List.reverseRecOn generalizing after with
  | nil => exact ⟨_, h.mirrors_alone, rfl, rfl⟩
  | append_singleton before a ih =>
    have has' : as = before ++ a :: after := by simp [has]
    obtain ⟨others, hm, hidentities, hchronicle⟩ := ih has'
    have hd : (e.after before).IsDivided own ids := by
      have h' := h
      rw [has'] at h'
      exact h'.isDivided
    have hapart : ((e.after before).act a).IsApart own ids := by
      rw [← after_concat]
      exact h.apart _ (has ▸ List.prefix_append _ _)
    have hvoices : e.voices own as = e.voices own before ++
        ((e.after before).named own a ++ ((e.after before).act a).voices own after) := by
      rw [has', voices_append, Engine.voices]
    obtain ⟨others', hecho, hmade, hdone⟩ := hm.echo hd (h.hereditary before a after has') hapart
      fun x hx => by
        obtain ⟨xs, hxs⟩ := List.head?_eq_some_iff.1 hx
        refine ⟨h.voices x ?_, ?_⟩
        · rw [hvoices, hxs]
          simp
        · show (e.voices own as).getD _ "" = x
          rw [hidentities, hvoices, hxs]
          simp
    rw [echoes_concat, after_append (alone own e as), after_concat]
    refine ⟨others', hecho, ?_, ?_⟩
    · rw [hmade, hidentities, voices_append]
      simp [Engine.voices]
    · rw [chronicle_append, chronicle_concat, List.filter_append, hchronicle, hdone,
        hd.apart.filter_deeds hd.sound hapart]

end KeepsApart

/-! ## Independence -/

/-- What is done for a family, and what it is left with, is the same after two histories: in the
second one, nothing else is done and nobody else is there. -/
structure Alike (own : Nat → Bool) (ids : String → Bool) (e : Engine) (as : List Act) (e' : Engine)
    (as' : List Act) : Prop where
  /-- The same tasks are taken on or cut off and the same delays cancelled, and no others. -/
  acts : as'.filter (Act.isFor (fun _ => true) fun _ => true) = as.filter (Act.isFor own ids)
  /-- Everything that is done, with the chains as they are then and their contexts. -/
  chronicle : e'.chronicle as' = (e.chronicle as).filter fun d => ids d.1.inst
  tasks : (e'.after as').tasks = (e.after as).tasks.filter fun t => own t.number
  endings : (e'.after as').endings.filter (fun x => own x.1) =
    (e.after as).endings.filter fun x => own x.1
  positions : ∀ x, ids x = true → (e'.after as').store.position? x = (e.after as).store.position? x
  armed : (e'.after as').scheduler.timers.armed.Perm
    ((e.after as).scheduler.timers.armed.filter fun y => own y.work.delay)
  cancelled : ∀ τ, τ.isOwn own = true → (e'.after as').isCancelled τ = (e.after as).isCancelled τ
  pending : ∀ d x p, ids x = true → (e.after as).isCancelled p.token = false →
    ((e'.after as').pending.get? (d, x) = some p ↔ (e.after as).pending.get? (d, x) = some p)

/-- By an act no live continuation of a family is lost: it is still armed, and known as pending,
unless it goes off. -/
structure Spares (own : Nat → Bool) (ids : String → Bool) (e : Engine) (a : Act) : Prop where
  armed : ∀ y ∈ e.scheduler.timers.armed, own y.work.delay = true →
    y ∈ (e.act a).scheduler.timers.armed ∨ ∃ n, e.woken? a = some (y.task n)
  pending : ∀ d x p, ids x = true → e.pending.get? (d, x) = some p →
    (e.act a).isCancelled p.token = false →
      (e.act a).pending.get? (d, x) = some p ∨ ∃ t ∈ e.woken? a, t.token.path.headD 0 = p.number

/-- An act that the mirror notices by numbers and tokens only spares the family. -/
theorem spares_of_rouses {e'' : Engine} {others' : Nat} (hr : e.Rouses a m)
    (h : e.Mirrors own ids voice others e') (hm : m.Mirrors own ids voice others' e'')
    (hpending : e''.pending = e'.pending) (hscheduler : e''.scheduler = e'.scheduler)
    (hsuffix : e.cancelled <:+ (e.act a).cancelled) : e.Spares own ids a := by
  have harmed : ∀ y ∈ e.scheduler.timers.armed, own y.work.delay = true →
      y ∈ m.scheduler.timers.armed := by
    intro y hy hown
    have hy' := h.scheduler.armed.mem_iff.2 (List.mem_filter.2 ⟨hy, hown⟩)
    rw [← hscheduler] at hy'
    exact (List.mem_filter.1 (hm.scheduler.armed.mem_iff.1 hy')).1
  have hlive : ∀ d x p, ids x = true → e.pending.get? (d, x) = some p →
      (e.act a).isCancelled p.token = false → m.pending.get? (d, x) = some p := by
    intro d x p hx hp hc
    have hc' : e.isCancelled p.token = false := by
      rw [Bool.eq_false_iff] at hc ⊢
      exact fun hin => hc (List.any_eq_true.2
        ((List.any_eq_true.1 hin).imp fun τ hτ => ⟨hsuffix.subset hτ.1, hτ.2⟩))
    have hp' := (h.delays.live d x p hx hc').2 hp
    rw [← hpending] at hp'
    refine (hm.delays.live d x p hx ?_).1 hp'
    rwa [isCancelled, ← hr.cancelled_eq]
  cases hr with
  | none hact _ =>
    refine ⟨fun y hy hown => .inl ?_, fun d x p hx hp hc => .inl ?_⟩
    · rw [hact]
      exact harmed y hy hown
    · have hin := hlive d x p hx hp hc
      rwa [hact]
  | @some place z hact hwoken hz hmarked _ =>
    have hwake := act_wake hz
    refine ⟨fun y hy hown => ?_, fun d x p hx hp hc => ?_⟩
    · rcases List.mem_cons.1 ((armed_perm hz).mem_iff.1 (harmed y hy hown)) with rfl | hin
      · exact .inr ⟨_, hwoken⟩
      · refine .inl ?_
        rw [hact, hwake]
        exact hin
    · have hin := hlive d x p hx hp hc
      rw [hact, hwake, hwoken]
      by_cases hnumber : z.work.delay = p.number
      · exact .inr ⟨_, rfl, hmarked.trans hnumber⟩
      · refine .inl ?_
        show (m.untrack _ _ _).pending.get? (d, x) = some p
        rw [get?_untrack]
        simp [hin, Option.filter, Ne.symm hnumber]

namespace KeepsApart

variable {as : List Act}

/-- **Instances do not interfere.** What is done for a family of instances, and what they are left
with, is what they do and are left with in an engine that they have to themselves; tasks of others
and those who cancel delays of others spare the live continuations of the family, and the latter
cancel none of its tokens. What fails does not do so by the number of calls before it
(`Engine.IsSteady`): by that number, the calls for one instance would decide what fails for
another. -/
theorem independent (h : e.KeepsApart own ids as) :
    e.Alike own ids as (e.alone own as) (e.echoes own ids (e.alone own as) as) ∧
      (∀ before n after, as = before ++ .advance n :: after → own n = false →
        (e.after before).Spares own ids (.advance n)) ∧
      ∀ before d x after, as = before ++ .cancelDelay d x :: after → ids x = false →
        (e.after before).Spares own ids (.cancelDelay d x) ∧
          ∀ τ, τ.isOwn own = true →
            ((e.after before).act (.cancelDelay d x)).isCancelled τ =
              (e.after before).isCancelled τ := by
  have hsplit : ∀ {before a after}, as = before ++ a :: after →
      (e.after before).IsDivided own ids := by
    rintro before a after rfl
    exact h.isDivided
  refine ⟨?_, ?_, ?_⟩
  · obtain ⟨others, hm, -, hchronicle⟩ := h.mirrors (List.append_nil as).symm
    exact {
      acts := filter_echoes own ids e _ as
      chronicle := hchronicle
      tasks := hm.tasks
      endings := hm.endings
      positions x hx := by rw [Store.position?, Store.position?, hm.store.backing.load hx]
      armed := hm.scheduler.armed
      cancelled := hm.cancelled
      pending := hm.delays.live }
  · intro before n after has hn
    have hd := hsplit has
    obtain ⟨others, hm, -⟩ := h.mirrors has
    obtain ⟨m, others', hr, hm', -⟩ := hm.advance_left hd hn (h.hereditary _ _ _ has)
    obtain ⟨hpending, hscheduler⟩ := after_passing_keeps own (e.after before) _ (.advance n)
    exact spares_of_rouses hr hm hm' hpending hscheduler (hd.sound.retains _).cancelled
  · intro before d x after has hx
    have hd := hsplit has
    obtain ⟨others, hm, -⟩ := h.mirrors has
    have hm' : ((e.after before).act (.cancelDelay d x)).Mirrors own ids _ others _ :=
      hm.cancelDelay_left d hx
    have hr : (e.after before).Rouses (.cancelDelay d x) _ :=
      .none rfl (woken?_eq_none ((tasks_cancelDelay _ d x).symm ▸ hd.sound.lt_next))
    exact ⟨spares_of_rouses hr hm hm' rfl rfl (hd.sound.retains _).cancelled,
      fun τ hτ => (hm'.cancelled τ hτ).symm.trans (hm.cancelled τ hτ)⟩

end KeepsApart

end Engine

namespace TwoInstances

/-- Two instances are run at a time; the delay of one of them is cancelled, and the other one goes on
to its end. -/
def acts : List Act :=
  [.addRunner Greeting.registry .empty, .mint, .mint, .run ⟨0⟩ (.root 2) Greeting.request,
    .run ⟨0⟩ (.root 3) { workflow := "greeting", inst := some "y" },
    .advance 4, .advance 5, .advance 5, .advance 4] ++
  .replicate 4 (.advance 4) ++ .replicate 5 (.advance 5) ++ .replicate 2 (.advance 4) ++
  [.cancelDelay ⟨1⟩ "y", .drop 1, .wake 0] ++
  .replicate 8 (.advance 10) ++ .replicate 2 (.advance 4)

/-- The numbers of the first instance. -/
def own (n : Nat) : Bool := [2, 4, 6, 8, 10].contains n

theorem keepsApart : Greeting.engine.KeepsApart own (· == "x") acts where
  new := ⟨rfl, rfl, rfl, rfl⟩
  pending := rfl
  steady := ⟨fun _ => rfl, fun _ => rfl, fun _ _ _ => rfl, fun _ _ _ _ => rfl⟩
  hereditary := Act.forall_split (by decide +kernel)
  tokens before a after token f has ha hown := by
    have htokens : ∀ before a after, acts = before ++ a :: after →
        ∀ p ∈ a.opening?, own (Greeting.engine.after before).next = true → p.1.isOwn own = true :=
      Act.forall_split (by decide +kernel)
    exact htokens before a after has _ ha hown
  voices := by decide +kernel
  apart as' h := by
    have hapart : ∀ as' ∈ acts.inits, (Greeting.engine.after as').IsApart own (· == "x") := by
      decide +kernel
    exact hapart as' ((List.mem_inits _ _).2 h)

/-- What is done for the first instance is done for it alone, and its delay outlives the cancellation
of the other one. -/
theorem undisturbed :
    Greeting.engine.Alike own (· == "x") acts (Greeting.engine.alone own acts)
        (Greeting.engine.echoes own (· == "x") (Greeting.engine.alone own acts) acts) ∧
      (Greeting.engine.after (acts.take 20)).Spares own (· == "x") (.cancelDelay ⟨1⟩ "y") ∧
      (Greeting.engine.after (acts.take 21)).hasPending ⟨1⟩ "x" = true ∧
      (Greeting.engine.chronicle acts).length = 20 ∧
      ((Greeting.engine.chronicle acts).filter fun d => d.1.inst == "x").length = 13 := by
  obtain ⟨halike, -, hcancel⟩ := keepsApart.independent
  exact ⟨halike, (hcancel (acts.take 20) ⟨1⟩ "y" (acts.drop 21) rfl (by decide +kernel)).1,
    by decide +kernel, by decide +kernel, by decide +kernel⟩

end TwoInstances

end DurableFlow
