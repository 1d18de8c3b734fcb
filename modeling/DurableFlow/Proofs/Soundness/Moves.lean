import DurableFlow.Proofs.Soundness.Openings

/-!
# Moves of tasks

Each kind of move fits the account of its engine, with the deeds that it does and what callers are
told by it (`Engine.fits_move`). There is one lemma for each frame on top of a task, each stage of
a chain, and each effect of a plan.
-/

namespace DurableFlow

namespace Engine

variable {S : Standard} {e : Engine} {t : Task} {below : List Frame} {o : Origin} {c : Chain}
  {A : Account} {ds : List (Chain × Deed)} {ts : List (CompletionId × Option Reply)}

/-! ## Steps -/

theorem fits_moveInside {index : Nat} {b : Behaviour}
    (h : e.Holds S t (.driving o c (.inside index b) :: below))
    (ht : t.frames = .driving o c (.inside index b) :: below) :
    (e.moveInside t below o c index b).Fits S
      (e.accountBut t (.driving o c (.inside index b) :: below)) t.number
      ((e.deed? t.token c (.inside index b)).map (c, ·)).toList
      (match b with
        | .panic _ p => Account.told (fun _ => some (.panicked p)) o
        | _ => []) := by
  obtain ⟨hd, hb⟩ : S.definition c.definition ∧ c.definition.Within index c.context b :=
    h.task.frames _ List.mem_cons_self
  have hstrands := strands_driving e o c (.inside index b) (below ++ e.others t.number)
  -- A step that goes on leaves the account as it is.
  have go : ∀ {e' : Engine} {b' : Behaviour}, e'.Sound S → e'.tasks = e.tasks → b.Next b' →
      (∀ F, e'.accountOf F = e.accountOf F) →
      (Move.on e' (t.doing (.driving o c (.inside index b') :: below))).Fits S
        (e.accountBut t (.driving o c (.inside index b) :: below)) t.number [] [] := by
    intro e' b' hsound htasks hnext haccount
    have hframe : Frame.Sound S (.driving o c (.inside index b')) := ⟨hd, hb.next hnext⟩
    have hothers : e'.others t.number = e.others t.number := by rw [others, others, htasks]
    have hphase : (Stage.inside index b').phase = (Stage.inside index b).phase := rfl
    refine ((h.congr hsound htasks).replace hframe).on (.of_eq ?_)
    rw [haccount, hothers, accountOf_stage e o c hphase]
    rfl
  cases b with
  | finish context outcome =>
    simp only [moveInside]
    split
    · rename_i plan hplan
      have hframe : Frame.Sound S (.driving o { c with context } (.acting plan)) := ⟨hd, trivial⟩
      exact (h.replace hframe).on
        (.steps (Account.Step.stay hstrands hd (.heed hb hplan) rfl (by simp)).steps)
    · rename_i fault hplan
      have hframe : Frame.Sound S (.driving o { c with context } (.halting fault)) := ⟨hd, trivial⟩
      exact (h.replace hframe).on
        (.steps (Account.Step.stay hstrands hd (.misjump hb hplan) rfl (by simp)).steps)
  | panic context payload =>
    obtain ⟨journal, hdown⟩ := e.tearDown_eq t below o c payload
    have hsound : Engine.Sound S { e with journal } := h.sound.congr rfl le_rfl rfl rfl
    simp only [moveInside, hdown]
    exact (h.congr hsound rfl).answer _ (.steps (Account.Step.panic hstrands).steps)
  | emit emission rest => exact go (h.sound.congr rfl le_rfl rfl rfl) rfl (.emit ..) fun _ => rfl
  | cancel rest => exact go (h.sound.congr rfl le_rfl rfl rfl) rfl (.cancel ..) fun _ => rfl
  | await context signal rest =>
    simp only [moveInside]
    split
    · exact go h.sound rfl (.await ..) fun _ => rfl
    · refine Holds.park (ht ▸ h) ?_
      rw [ht]
      rfl
  | locate runner next => exact go h.sound rfl (.locate ..) fun _ => rfl
  | launch context runner request next =>
    have hcalling : Frame.Sound S (.driving o c (.calling index next)) :=
      ⟨hd, fun reply => hb.next (.launch ..)⟩
    have hopening : Frame.Sound S (.opening runner request false) := S.launched hd hb
    have htask := (h.task.replace hcalling).push rfl hopening
    refine ⟨rfl, htask, h.sound, h.mem, .of_eq ?_⟩
    have hphase : (Stage.inside index (.launch context runner request next)).phase =
        (Stage.calling index next).phase := rfl
    exact (accountOf_stage e o c hphase (below ++ e.others t.number)).symm

/-! ## The end of a chain -/

theorem Holds.finish {stage : Stage} (h : e.Holds S t (.driving o c stage :: below))
    (result : RunResult)
    (hA : Account.Passes S A ds ts { e.accountBut t below with
      waiting := o.receiver?.toList + (e.accountBut t below).waiting }) :
    (e.finish t below o result).Fits S A t.number ds ts := by
  have hawait := congrArg (Account.Passes S A ds ts) (Account.await_none (e.accountBut t below))
  cases o with
  | call runner receiver =>
    cases receiver with
    | some k =>
      have hreceiving : e.Holds S t (.receiving runner k :: below) := h.replace trivial
      exact hreceiving.on hA
    | none => exact h.answer _ (hawait.mp hA)
  | direct => exact h.answer _ (hawait.mp hA)
  | continuation => exact h.answer _ (hawait.mp hA)

theorem fits_halt {fault : Fault} (h : e.Holds S t (.driving o c (.halting fault) :: below)) :
    (e.halt t below o c fault).Fits S (e.accountBut t (.driving o c (.halting fault) :: below))
      t.number [(c, .halted fault)]
      (Account.told ((e.accountBut t below).haltReply · fault) o) := by
  have hstrands := strands_driving e o c (.halting fault) (below ++ e.others t.number)
  cases o with
  | call runner receiver =>
    have hstep := Account.Step.haltCall (S := S) hstrands (by simp)
    cases receiver with
    | some k => exact h.answer _ (.steps hstep.steps)
    | none => exact h.answer _ (.steps hstep.steps)
  | direct =>
    have hstep := Account.Step.haltCall (S := S) hstrands (by simp)
    exact h.answer _ (.steps hstep.steps)
  | continuation =>
    have hstep := Account.Step.haltContinuation (S := S) hstrands
    have htasks : (e.settle c.completion (.error (.fault fault))).tasks = e.tasks := by
      rw [settle_eq]
    have hsound : (e.settle c.completion (.error (.fault fault))).Sound S := by
      rw [settle_eq]
      exact h.sound.congr rfl le_rfl rfl rfl
    refine (h.congr hsound htasks).answer _ (.steps ?_)
    rw [accountOf_settle, others_of_tasks htasks]
    exact hstep.steps

/-! ## Plans -/

theorem publish_cases (e : Engine) (notice : Notice) :
    (e.publish notice).2 = .ok () ∨ (e.publish notice).2 = .error .busClosed := by
  unfold publish
  dsimp only
  split
  · exact .inr rfl
  · exact .inl rfl

theorem sound_publish (h : e.Sound S) (notice : Notice) : (e.publish notice).1.Sound S := by
  rw [publish_eq]
  exact h.congr rfl le_rfl rfl rfl

theorem tasks_publish (e : Engine) (notice : Notice) : (e.publish notice).1.tasks = e.tasks := by
  rw [publish_eq]

theorem fits_save {next : Nat} {es : List Effect} {turn : Turn}
    (h : e.Holds S t (.driving o c (.acting ⟨.save next :: es, turn⟩) :: below)) :
    (e.moveActing t below o c ⟨.save next :: es, turn⟩).Fits S
      (e.accountBut t (.driving o c (.acting ⟨.save next :: es, turn⟩) :: below)) t.number
      ((e.deed? t.token c (.acting ⟨.save next :: es, turn⟩)).map (c, ·)).toList [] := by
  have hd : S.definition c.definition := (h.task.frames _ List.mem_cons_self).1
  have hstrands := strands_driving e o c (.acting ⟨.save next :: es, turn⟩)
    (below ++ e.others t.number)
  have hperform : e.perform c (.save next) =
      ((e.save c.inst next).1, c, (e.save c.inst next).2.mapError .store) := rfl
  have hsaved : (e.save c.inst next).1.Sound S := h.sound.congr rfl le_rfl rfl rfl
  simp only [moveActing, hperform, deed?]
  cases hr : (e.save c.inst next).2 with
  | ok _ =>
    have hframe : Frame.Sound S (.driving o c (.acting ⟨es, turn⟩)) := ⟨hd, trivial⟩
    refine ((h.congr hsaved rfl).replace hframe).on (.steps ?_)
    rw [accountOf_save_of_ok hr]
    exact (Account.Step.go hstrands hd .save rfl (by simp)).steps
  | error err =>
    have hframe : Frame.Sound S (.driving o c (.halting (.store err))) := ⟨hd, trivial⟩
    refine ((h.congr hsaved rfl).replace hframe).on (.steps ?_)
    rw [accountOf_save_of_error hr]
    exact (Account.Step.stay hstrands hd .unsave rfl (by simp)).steps

theorem fits_publish {news : News} {es : List Effect} {turn : Turn}
    (h : e.Holds S t (.driving o c (.acting ⟨.publish news :: es, turn⟩) :: below)) :
    (e.moveActing t below o c ⟨.publish news :: es, turn⟩).Fits S
      (e.accountBut t (.driving o c (.acting ⟨.publish news :: es, turn⟩) :: below)) t.number
      ((e.deed? t.token c (.acting ⟨.publish news :: es, turn⟩)).map (c, ·)).toList [] := by
  have hd : S.definition c.definition := (h.task.frames _ List.mem_cons_self).1
  have hstrands := strands_driving e o c (.acting ⟨.publish news :: es, turn⟩)
    (below ++ e.others t.number)
  have hperform : e.perform c (.publish news) =
      ((e.publish (c.notice news)).1, c, (e.publish (c.notice news)).2) := rfl
  have htasks := tasks_publish e (c.notice news)
  have hpublished := h.congr (sound_publish h.sound (c.notice news)) htasks
  simp only [moveActing, hperform, deed?]
  rcases publish_cases e (c.notice news) with hr | hr
  · have hframe : Frame.Sound S (.driving o c (.acting ⟨es, turn⟩)) := ⟨hd, trivial⟩
    simp only [hr]
    refine (hpublished.replace hframe).on (.steps ?_)
    rw [accountOf_publish, others_of_tasks htasks]
    exact (Account.Step.stay hstrands hd .publish rfl (by simp)).steps
  · have hframe : Frame.Sound S (.driving o c (.halting .busClosed)) := ⟨hd, trivial⟩
    simp only [hr]
    refine (hpublished.replace hframe).on (.steps ?_)
    rw [accountOf_publish, others_of_tasks htasks]
    exact (Account.Step.stay hstrands hd .refuse rfl (by simp)).steps

theorem fits_settle {s : Settlement} {es : List Effect} {turn : Turn}
    (h : e.Holds S t (.driving o c (.acting ⟨.settle s :: es, turn⟩) :: below)) :
    (e.moveActing t below o c ⟨.settle s :: es, turn⟩).Fits S
      (e.accountBut t (.driving o c (.acting ⟨.settle s :: es, turn⟩) :: below)) t.number
      [(c, .settled s)] [] := by
  have hd : S.definition c.definition := (h.task.frames _ List.mem_cons_self).1
  have hstrands := strands_driving e o c (.acting ⟨.settle s :: es, turn⟩)
    (below ++ e.others t.number)
  have htasks : (e.settle c.completion s).tasks = e.tasks := by rw [settle_eq]
  have hsound : (e.settle c.completion s).Sound S := by
    rw [settle_eq]
    exact h.sound.congr rfl le_rfl rfl rfl
  have hframe : Frame.Sound S (.driving o { c with completion := none } (.acting ⟨es, turn⟩)) :=
    ⟨hd, trivial⟩
  refine ((h.congr hsound htasks).replace hframe).on (.steps ?_)
  rw [accountOf_settle, others_of_tasks htasks]
  exact (Account.Step.settle hstrands hd).steps

theorem fits_suspend {next : Nat} {due : Instant}
    (h : e.Holds S t (.driving o c (.acting ⟨[], .suspend next due⟩) :: below)) :
    (e.moveActing t below o c ⟨[], .suspend next due⟩).Fits S
      (e.accountBut t (.driving o c (.acting ⟨[], .suspend next due⟩) :: below)) t.number
      ((e.deed? t.token c (.acting ⟨[], .suspend next due⟩)).map (c, ·)).toList [] := by
  have hd : S.definition c.definition := (h.task.frames _ List.mem_cons_self).1
  have hstrands := strands_driving e o c (.acting ⟨[], .suspend next due⟩)
    (below ++ e.others t.number)
  obtain ⟨m, hsound, htasks, ⟨hm, haccount⟩ | ⟨error, hm, haccount⟩⟩ :=
    suspend_cases h.sound hd t.token next due
  · simp only [moveActing, deed?, hm]
    obtain ⟨hholds, hsteps⟩ := (h.congr hsound htasks).releaseDue
    refine hholds.finish _ (.steps ?_)
    -- Whoever waits from now on stands among the frames while others wake up.
    let waiting := o.receiver?.toList.map (Frame.receiving ⟨0⟩)
    have hwake := hsteps (waiting ++ below)
    rw [List.append_assoc, List.append_assoc, accountOf_receiving, accountOf_receiving,
      others_of_tasks htasks, haccount] at hwake
    have hrest := (Account.Step.suspend hstrands hd).steps.tail (.number (Nat.le_succ e.next))
    exact hrest.trans hwake
  · simp only [moveActing, deed?, hm]
    have hframe : Frame.Sound S (.driving o c (.halting (.scheduler error))) := ⟨hd, trivial⟩
    refine ((h.congr hsound htasks).replace hframe).on (.steps ?_)
    rw [haccount, others_of_tasks htasks]
    exact (Account.Step.stay hstrands hd .unschedule rfl (by simp)).steps.tail
      (.number (Nat.le_succ e.next))

theorem fits_moveActing {plan : Plan} (h : e.Holds S t (.driving o c (.acting plan) :: below)) :
    (e.moveActing t below o c plan).Fits S (e.accountBut t (.driving o c (.acting plan) :: below))
      t.number ((e.deed? t.token c (.acting plan)).map (c, ·)).toList [] := by
  obtain ⟨effects, turn⟩ := plan
  have hd : S.definition c.definition := (h.task.frames _ List.mem_cons_self).1
  have hstrands := strands_driving e o c (.acting ⟨effects, turn⟩) (below ++ e.others t.number)
  cases effects with
  | cons effect es =>
    cases effect with
    | save next => exact fits_save h
    | publish news => exact fits_publish h
    | settle s => exact fits_settle h
  | nil =>
    cases turn with
    | arrive index =>
      have hframe : Frame.Sound S (.driving o c (.entering index)) := ⟨hd, trivial⟩
      exact (h.replace hframe).on
        (.steps (Account.Step.stay hstrands hd .arrive rfl (by simp)).steps)
    | suspend next due => exact fits_suspend h
    | stop result => exact h.finish _ (.steps (Account.Step.stop hstrands).steps)

theorem fits_entering {index : Nat} (h : e.Holds S t (.driving o c (.entering index) :: below)) :
    (e.moveDriving t below o c (.entering index)).Fits S
      (e.accountBut t (.driving o c (.entering index) :: below)) t.number
      ((e.deed? t.token c (.entering index)).map (c, ·)).toList [] := by
  have hd : S.definition c.definition := (h.task.frames _ List.mem_cons_self).1
  have hstrands := strands_driving e o c (.entering index) (below ++ e.others t.number)
  simp only [moveDriving, deed?]
  cases hs : c.definition.step? index with
  | none =>
    have hsize := Definition.step?_eq_none_iff.1 hs
    have hframe : Frame.Sound S (.driving o c (.acting (.atEnd c.context))) := ⟨hd, trivial⟩
    simp only [if_pos hsize]
    exact (h.replace hframe).on
      (.steps (Account.Step.stay hstrands hd (.pass hsize) rfl (by simp)).steps)
  | some step =>
    have hwithin := Definition.within_execute hs c.context
    have hlt := hwithin.lt_size
    simp only [if_neg (Nat.not_le.2 hlt)]
    split
    · have hframe : Frame.Sound S (.driving o c (.halting .cancelled)) := ⟨hd, trivial⟩
      exact (h.replace hframe).on
        (.steps (Account.Step.stay hstrands hd .withdraw rfl (by simp)).steps)
    · have hframe : Frame.Sound S (.driving o c (.inside index (step.execute c.context))) :=
        ⟨hd, hwithin⟩
      have hsound : (e.record (.executed c.inst index c.context)).Sound S :=
        h.sound.congr rfl le_rfl rfl rfl
      exact ((h.congr hsound rfl).replace hframe).on
        (.steps (Account.Step.stay hstrands hd (.execute hlt) rfl (by simp)).steps)

theorem fits_moveDriving {stage : Stage} (h : e.Holds S t (.driving o c stage :: below))
    (ht : t.frames = .driving o c stage :: below) (hp : t.parked = false) :
    (e.moveDriving t below o c stage).Fits S (e.accountBut t (.driving o c stage :: below))
      t.number ((e.deed? t.token c stage).map (c, ·)).toList (e.told t) := by
  cases stage with
  | entering index =>
    have htold : e.told t = [] := by simp [told, hp, ht]
    rw [htold]
    exact fits_entering h
  | inside index b =>
    have htold : e.told t = match b with
        | .panic _ p => Account.told (fun _ => some (.panicked p)) o
        | _ => [] := by
      simp only [told, hp, ht]
      cases o with
      | call runner receiver => cases receiver <;> cases b <;> rfl
      | direct => cases b <;> rfl
      | continuation => cases b <;> rfl
    rw [htold]
    exact fits_moveInside h ht
  | calling index next => exact ⟨rfl, by simp [told, hp, ht]⟩
  | acting plan =>
    have htold : e.told t = [] := by simp [told, hp, ht]
    rw [htold]
    exact fits_moveActing h
  | halting fault =>
    have htold : e.told t = Account.told ((e.accountBut t below).haltReply · fault) o := by
      simp only [told, hp, ht]
      cases o with
      | call runner receiver => cases receiver <;> rfl
      | direct => rfl
      | continuation => rfl
    rw [htold]
    exact fits_halt h

/-! ## Openings -/

theorem fits_moveOpening {id : RunnerId} {q : Request} {resuming : Bool}
    (h : e.Holds S t (.opening id q resuming :: below)) :
    (e.moveOpening t below id q resuming).Fits S (e.accountBut t (.opening id q resuming :: below))
      t.number (e.moveOpening t below id q resuming).started [] := by
  have hq : S.request q := h.task.frames _ List.mem_cons_self
  have hopens := e.opens_moveOpening t below id q resuming
  generalize e.moveOpening t below id q resuming = m at hopens ⊢
  cases hopens with
  | unknown =>
    rw [refuse, started_answer]
    exact h.answer _ (.of_eq rfl)
  | answers journal reply _ _ _ =>
    have hsound : (e.consulted q journal).Sound S := h.sound.congr rfl le_rfl rfl rfl
    rw [started_answer]
    exact (h.congr hsound rfl).answer reply (.of_eq (e.accountOf_load _ _))
  | @starts D R p journal hR hD hload =>
    have hsound : Engine.Sound S { e.consulted q journal with next := e.next + 1 } :=
      h.sound.congr rfl (Nat.le_succ _) rfl rfl
    have hD' : S.definition D := h.sound.runners id R hR _ D hD
    have hframe : Frame.Sound S (.driving (.call id (e.opened id R D (e.identify q).1 q).completion)
        (e.opened id R D (e.identify q).1 q) (.entering (p.getD 0))) := ⟨hD', trivial⟩
    refine ((h.congr hsound rfl).replace hframe).on (.start ?_ rfl)
    have hi : q.IsLoyal →
        p.getD 0 = e.position (e.opened id R D (e.identify q).1 q).inst := by
      intro hloyal
      rw [Chain.inst, opened, inst_seed hloyal id R D (e.identify q).1]
      exact (position_of_load hload).symm
    have haccount : (e.consulted q journal).accountOf (below ++ e.others t.number) =
        e.accountOf (below ++ e.others t.number) := e.accountOf_load _ _
    show Account.Starts S (e.accountOf (below ++ e.others t.number)) _ _
    rw [← haccount]
    exact Account.Starts.start (c := e.opened id R D (e.identify q).1 q) hq hD'
      (haccount ▸ hi) (e.completion_opened ..) rfl

/-! ## Tasks -/

/-- Nobody owes a completion that is not owed. -/
theorem completion_ne_of_not_isOwed {k : CompletionId} (h : e.isOwed k = false) :
    ∀ s ∈ e.account.strands, s.chain.completion ≠ some k := by
  intro s hs hk
  simp only [isOwed, Bool.or_eq_false_iff, List.any_eq_false] at h
  obtain ⟨htasks, harmed⟩ := h
  rcases Multiset.mem_add.1 hs with hs | hs
  · obtain ⟨f, hf, hstrand⟩ := List.mem_filterMap.1 hs
    obtain ⟨t, ht, hft⟩ := List.mem_flatMap.1 hf
    refine htasks t ht (List.any_eq_true.2 ⟨f, hft, ?_⟩)
    cases f with
    | driving o c stage =>
      cases hstrand
      exact beq_iff_eq.2 hk
    | _ => cases hstrand
  · obtain ⟨timer, htimer, rfl⟩ := List.mem_map.1 hs
    exact harmed timer.work (List.mem_map_of_mem htimer) (beq_iff_eq.2 hk)

/-- What a task that is not parked does. -/
theorem fits_moveTop (h : e.Holds S t t.frames) (hp : t.parked = false)
    (hA : e.accountBut t t.frames = e.account) :
    (e.moveTop t).Fits S e.account t.number (e.deedsOf t) (e.told t) := by
  rw [← hA]
  unfold moveTop
  split
  · rename_i ht
    have hdeeds : e.deedsOf t = [] := by simp [deedsOf, hp, ht]
    have htold : e.told t = [] := by simp [told, hp, ht]
    rw [hdeeds, htold, ht]
    exact ⟨h.sound, h.mem, .refl⟩
  · rename_i runner request resuming below ht
    rw [ht] at h ⊢
    have hdeeds : e.deedsOf t = (e.moveOpening t below runner request resuming).started := by
      simp [deedsOf, hp, ht, moveTop]
    have htold : e.told t = [] := by simp [told, hp, ht]
    rw [hdeeds, htold]
    exact fits_moveOpening h
  · rename_i origin chain stage below ht
    rw [ht] at h ⊢
    have hdeeds : e.deedsOf t = ((e.deed? t.token chain stage).map (chain, ·)).toList := by
      simp [deedsOf, hp, ht]
    rw [hdeeds]
    exact fits_moveDriving h ht hp
  · rename_i runner k below ht
    have hdeeds : e.deedsOf t = [] := by simp [deedsOf, hp, ht]
    have hwaiting : (e.accountBut t t.frames).waiting =
        k ::ₘ (e.accountBut t below).waiting := by
      rw [ht]
      rfl
    rw [hdeeds]
    cases hk : e.settled.get? k with
    | some s =>
      have htold : e.told t = [(k, some (.settled s))] := by simp [told, hp, ht, hk]
      have hstep : Account.Step S (e.accountBut t t.frames) [] [(k, some (.settled s))] _ :=
        .tell hwaiting hk
      rw [htold]
      rw [ht] at h hstep ⊢
      exact h.answer _ (.steps hstep.steps)
    | none =>
      cases howed : e.isOwed k with
      | true =>
        have htold : e.told t = [] := by simp [told, hp, ht, hk, howed]
        rw [htold]
        exact h.park rfl
      | false =>
        have htold : e.told t = [(k, some (.settled (.error (.fault .cancelled))))] := by
          simp [told, hp, ht, hk, howed]
        have hstep : Account.Step S (e.accountBut t t.frames) []
            [(k, some (.settled (.error (.fault .cancelled))))] _ :=
          .tellBroken hwaiting hk (hA ▸ completion_ne_of_not_isOwed howed)
        rw [htold]
        rw [ht] at h hstep ⊢
        exact h.answer _ (.steps hstep.steps)
  · rename_i k below ht
    rw [ht] at h
    exact (h.task.frames (.listening k) List.mem_cons_self).elim

theorem severed_driving (o : Origin) (c : Chain) (stage : Stage) (fs : List Frame) :
    severed (.driving o c stage :: fs) = Account.told (fun _ => none) o ++ severed fs := by
  cases ho : o.receiver? with
  | none => simp [severed, Frame.receiver?, Account.told, ho]
  | some k => simp [severed, Frame.receiver?, Account.told, ho]

/-- Frames that are cut off are chains that are lost and calls that no longer wait. -/
theorem steps_losses (e : Engine) (fs F : List Frame) :
    Account.Steps S (e.accountOf (fs ++ F)) (losses fs) (severed fs) (e.accountOf F) := by
  induction fs with
  | nil => exact .refl
  | cons f fs ih =>
    cases f with
    | driving o c stage =>
      have hstep := Account.Step.lose (S := S) (strands_driving e o c stage (fs ++ F))
      rw [severed_driving]
      exact hstep.steps.trans ih
    | receiving r k =>
      have hwaiting : (e.accountOf (.receiving r k :: (fs ++ F))).waiting =
          k ::ₘ (e.accountOf (fs ++ F)).waiting := rfl
      exact (Account.Step.forget (S := S) hwaiting).steps.trans ih
    | opening r q resuming => exact ih
    | listening k => exact ih

/-- A task that waits is given up, or goes on to be looked at. -/
theorem fits_move (h : e.Holds S t t.frames) (hA : e.accountBut t t.frames = e.account) :
    (e.move t).Fits S e.account t.number (e.deedsOf t) (e.told t) := by
  cases hp : t.parked with
  | false =>
    rw [move, hp]
    exact fits_moveTop h hp hA
  | true =>
    have hlooks := e.looks_move hp
    generalize e.move t = m, e.deedsOf t = ds, e.told t = ts at hlooks ⊢
    cases hlooks with
    | @giveUp fs o c stage _ hfs hinside =>
      have hmem : .driving o c stage ∈ t.frames := by
        rw [hfs]
        exact List.mem_append_right _ List.mem_cons_self
      have hd : S.definition c.definition := (h.task.frames _ hmem).1
      obtain ⟨index, hphase⟩ : ∃ index, stage.phase = .within index := by
        cases stage with
        | inside index b => exact ⟨index, rfl⟩
        | calling index next => exact ⟨index, rfl⟩
        | _ => cases hinside
      have hlost : Account.Steps S (e.accountOf (t.frames ++ e.others t.number)) (losses fs)
          (severed fs) (e.accountOf (.driving o c stage :: e.others t.number)) := by
        rw [hfs, List.append_assoc]
        exact steps_losses e fs _
      have hstrands := strands_driving e o c stage (e.others t.number)
      rw [hphase] at hstrands
      have hsteps := hlost.trans (Account.Step.stay hstrands hd .abort rfl (by simp)).steps
      have hframe : Frame.Sound S (.driving o c (.halting .cancelled)) := ⟨hd, trivial⟩
      rw [List.map_nil, List.append_nil, List.append_nil] at hsteps
      rw [← hA]
      exact ⟨rfl, .single rfl hframe, h.sound, h.mem, .steps hsteps⟩
    | takeUp _ => exact ⟨rfl, ⟨h.task.frames, h.task.calling⟩, h.sound, h.mem, .of_eq hA⟩
    | wait _ => exact ⟨rfl, rfl⟩

end Engine

end DurableFlow
