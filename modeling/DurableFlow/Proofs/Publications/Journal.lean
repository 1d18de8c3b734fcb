import DurableFlow.Proofs.Histories.Stories
import DurableFlow.Proofs.Histories.Turns

/-!
# The journal of what is published

What the bus has accepted stands in the journal, in its order. Nothing gets there but by a deed: an
act adds the notice that a deed of it publishes, and nothing else. So the journal of a history says
what the deeds of the history say, about all instances together and about each of them.

Main statements: `Engine.publications_act`, `Engine.publications_after` and
`Engine.publicationsOf_after`.
-/

namespace DurableFlow

/-- The notice that the bus has accepted. -/
def Occurrence.notice? : Occurrence → Option Notice
  | .published _ notice => some notice
  | _ => none

/-- What is published by a deed. -/
def Deed.notice? : Deed → Option Notice
  | .published notice => some notice
  | _ => none

namespace Deed

/-- What is published, in its order. -/
def announcements (l : List Deed) : List Notice := l.filterMap notice?

theorem announcements_append (l l' : List Deed) :
    announcements (l ++ l') = announcements l ++ announcements l' :=
  List.filterMap_append

theorem mem_announcements {l : List Deed} {n : Notice} :
    n ∈ announcements l ↔ .published n ∈ l := by
  constructor
  · intro hn
    obtain ⟨d, hd, hnotice⟩ := List.mem_filterMap.1 hn
    cases d with
    | published n' =>
      cases hnotice
      exact hd
    | _ => cases hnotice
  · exact fun hn => List.mem_filterMap.2 ⟨_, hn, rfl⟩

theorem announcements_eq_nil {l : List Deed} (h : ∀ n, .published n ∉ l) :
    announcements l = [] :=
  List.eq_nil_iff_forall_not_mem.2 fun n hn => h n (mem_announcements.1 hn)

/-- What is published about an instance is published for it, if each chain speaks of its own. -/
theorem filter_announcements {ds : List (Chain × Deed)}
    (h : ∀ c n, (c, .published n) ∈ ds → n.inst = c.inst) (x : String) :
    (announcements (ds.map Prod.snd)).filter (fun n => n.inst == x) =
      announcements (Deed.of (fun c => c.inst == x) ds) := by
  induction ds with
  | nil => rfl
  | cons s ds ih =>
    obtain ⟨c, d⟩ := s
    have hinst : ∀ n ∈ announcements [d], n.inst = c.inst := fun n hn => by
      refine h c n ?_
      rw [← List.mem_singleton.1 (mem_announcements.1 hn)]
      exact List.mem_cons_self
    have hone : (announcements [d]).filter (fun n => n.inst == x) =
        announcements (Deed.of (fun c => c.inst == x) [(c, d)]) := by
      cases hx : c.inst == x with
      | true =>
        rw [Deed.of_singleton_of_pos hx]
        exact List.filter_eq_self.2 fun n hn => by rw [hinst n hn, hx]
      | false =>
        rw [show Deed.of (fun c => c.inst == x) [(c, d)] = [] from Deed.of_map_of_neg hx [d]]
        exact List.filter_eq_nil_iff.2 fun n hn => by rw [hinst n hn, hx]; exact Bool.false_ne_true
    have hrest := ih fun c n hn => h c n (List.mem_cons_of_mem _ hn)
    calc (announcements (((c, d) :: ds).map Prod.snd)).filter (fun n => n.inst == x)
        = (announcements [d] ++ announcements (ds.map Prod.snd)).filter fun n => n.inst == x := by
          rw [← announcements_append]
          rfl
      _ = announcements (Deed.of (fun c => c.inst == x) [(c, d)]) ++
            announcements (Deed.of (fun c => c.inst == x) ds) := by
          rw [List.filter_append, hone, hrest]
      _ = announcements (Deed.of (fun c => c.inst == x) ((c, d) :: ds)) := by
          rw [← announcements_append, ← Deed.of_append]
          rfl

end Deed

namespace Engine

/-- What the bus has accepted, in its order. -/
def publications (e : Engine) : List Notice := e.journal.filterMap Occurrence.notice?

/-- What the bus has accepted about an instance. -/
def publicationsOf (e : Engine) (x : String) : List Notice :=
  e.publications.filter fun n => n.inst == x

variable {e m : Engine} {ns : List Notice} {t : Task} {o : Origin} {c : Chain} {below : List Frame}

theorem publications_record (e : Engine) (occurrence : Occurrence) :
    (e.record occurrence).publications = e.publications ++ occurrence.notice?.toList := by
  cases h : occurrence.notice? <;> simp [publications, record, List.filterMap_append, h]

theorem publications_congr (h : m.journal = e.journal) : m.publications = e.publications := by
  rw [publications, publications, h]

theorem publications_record_of_none {occurrence : Occurrence} (h : occurrence.notice? = none) :
    (e.record occurrence).publications = e.publications := by
  rw [publications_record, h, Option.toList_none, List.append_nil]

/-! ## Effects -/

theorem publications_load (e : Engine) (inst : String) :
    (e.load inst).1.publications = e.publications := by
  refine publications_record_of_none ?_
  split
  · rfl
  · split <;> rfl

theorem publications_save (e : Engine) (inst : String) (next : Nat) :
    (e.save inst next).1.publications = e.publications := by
  refine publications_record_of_none ?_
  split <;> rfl

/-- **What the bus accepts is published, and nothing that it refuses.** -/
theorem publications_publish (e : Engine) (notice : Notice) :
    (e.publish notice).1.publications =
      e.publications ++ match (e.publish notice).2 with
        | .ok () => [notice]
        | .error _ => [] := by
  unfold publish
  dsimp only
  split
  · exact publications_record ..
  · exact publications_record ..

theorem publications_settle (e : Engine) (k : Option CompletionId) (s : Settlement) :
    (e.settle k s).publications = e.publications := by
  rw [settle_eq]
  rfl

theorem publications_resumeContinuation (e : Engine) (token : Token) (k : Continuation) :
    (e.resumeContinuation token k).publications = e.publications := by
  rw [resumeContinuation, untrack_eq]
  rfl

theorem publications_releaseDue (e : Engine) : e.releaseDue.publications = e.publications := by
  obtain hsame | ⟨timer, armed, -, -, hrelease⟩ := releaseDue_cases e
  · rw [hsame]
  · rw [hrelease, publications_resumeContinuation]
    rfl

theorem publications_suspend (e : Engine) (c : Chain) (token : Token) (next : Nat) (due : Instant) :
    (e.suspend c token next due).1.publications = e.publications := by
  unfold suspend
  dsimp only
  split
  · rw [publications_releaseDue]
    exact publications_record_of_none rfl
  · rw [untrack_eq]
    exact publications_record_of_none rfl

/-- Emissions are no notices. -/
theorem publications_foldl_emitted (e : Engine) (xs : List Emission) :
    (xs.foldl (fun e x => e.record (.emitted x)) e).publications = e.publications := by
  induction xs generalizing e with
  | nil => rfl
  | cons x xs ih =>
    rw [List.foldl_cons, ih]
    exact publications_record_of_none rfl

end Engine

/-! ## Moves -/

/-- A move of an engine publishes the notices, and nothing else. -/
def Move.Publishes (e : Engine) (ns : List Notice) : Move → Prop
  | .blocked => ns = []
  | .on m _ | .over m _ => m.publications = e.publications ++ ns

namespace Engine

variable {e m : Engine} {ns : List Notice} {t : Task} {o : Origin} {c : Chain} {below : List Frame}

theorem publishes_on_nil (h : m.publications = e.publications) (t : Task) :
    (Move.on m t).Publishes e [] :=
  h.trans (List.append_nil _).symm

/-- The end of a call is answered without a notice. -/
theorem publishes_answer (h : m.publications = e.publications ++ ns) (t : Task)
    (below : List Frame) (reply : Reply) : (m.answer t below reply).Publishes e ns := by
  obtain ⟨frames, hon⟩ | ⟨ending, hover⟩ := answer_cases t below reply
  · rw [hon]
    exact h
  · rw [hover]
    exact h

theorem publishes_answer_nil (h : m.publications = e.publications) (t : Task)
    (below : List Frame) (reply : Reply) : (m.answer t below reply).Publishes e [] :=
  publishes_answer (h.trans (List.append_nil _).symm) t below reply

/-- Nothing is published when a request is opened. -/
theorem publishes_moveOpening (e : Engine) (t : Task) (below : List Frame) (r : RunnerId)
    (q : Request) (resuming : Bool) : (e.moveOpening t below r q resuming).Publishes e [] := by
  have hloaded : ((e.identify q).2.load (e.identify q).1).1.publications = e.publications := by
    rw [publications_load]
    refine publications_congr ?_
    rw [e.identify_eq q]
  unfold moveOpening
  split
  · exact publishes_answer_nil rfl ..
  split
  · exact publishes_answer_nil rfl ..
  dsimp only
  split
  · exact publishes_answer_nil hloaded ..
  · exact publishes_answer_nil hloaded ..
  · split
    · refine publishes_answer_nil ?_ ..
      rw [publications_foldl_emitted, hloaded]
    · refine publishes_on_nil ?_ _
      refine Eq.trans ?_ hloaded
      exact publications_foldl_emitted ..

theorem publishes_tearDown (e : Engine) (t : Task) (below : List Frame) (o : Origin) (c : Chain)
    (payload : Panic) : (e.tearDown t below o c payload).Publishes e [] := by
  cases o with
  | call r receiver => exact publishes_answer_nil rfl ..
  | direct => exact publishes_answer_nil rfl ..
  | continuation => exact publishes_answer_nil (publications_record_of_none rfl) ..

/-- Nothing is published within a step. -/
theorem publishes_moveInside (e : Engine) (t : Task) (below : List Frame) (o : Origin) (c : Chain)
    (index : Nat) (b : Behaviour) : (e.moveInside t below o c index b).Publishes e [] := by
  cases b with
  | finish context outcome =>
    simp only [moveInside]
    split <;> exact publishes_on_nil rfl _
  | panic context payload => exact publishes_tearDown ..
  | emit emission rest => exact publishes_on_nil (publications_record_of_none rfl) _
  | cancel rest =>
    have hcancelled : (e.cancel t.token).publications = e.publications := rfl
    exact publishes_on_nil hcancelled _
  | await context signal rest =>
    simp only [moveInside]
    split <;> exact publishes_on_nil rfl _
  | locate runner next => exact publishes_on_nil rfl _
  | launch context runner request next => exact publishes_on_nil rfl _

theorem publishes_finish (h : m.publications = e.publications) (t : Task) (below : List Frame)
    (o : Origin) (result : RunResult) : (m.finish t below o result).Publishes e [] := by
  obtain ⟨frames, hon⟩ | ⟨ending, hover⟩ := finish_cases t below o result
  · rw [hon]
    exact publishes_on_nil h _
  · rw [hover]
    exact h.trans (List.append_nil _).symm

theorem publishes_halt (e : Engine) (t : Task) (below : List Frame) (o : Origin) (c : Chain)
    (fault : Fault) : (e.halt t below o c fault).Publishes e [] := by
  cases o with
  | call r receiver => cases receiver <;> exact publishes_answer_nil rfl ..
  | direct => exact publishes_answer_nil rfl ..
  | continuation => exact publishes_answer_nil (publications_settle ..) ..

/-- **What is done for a plan publishes what its deed says.** -/
theorem publishes_moveActing (e : Engine) (t : Task) (below : List Frame) (o : Origin) (c : Chain)
    (plan : Plan) :
    (e.moveActing t below o c plan).Publishes e
      (Deed.announcements (e.deed? t.token c (.acting plan)).toList) := by
  obtain ⟨effects, turn⟩ := plan
  cases effects with
  | cons effect es =>
    cases effect with
    | save next =>
      have hsaved := publications_save e c.inst next
      simp only [moveActing, perform, deed?]
      cases (e.save c.inst next).2 with
      | ok _ => exact publishes_on_nil hsaved _
      | error error => exact publishes_on_nil hsaved _
    | publish news =>
      have hpublished := publications_publish e (c.notice news)
      simp only [moveActing, perform, deed?]
      cases hresult : (e.publish (c.notice news)).2 with
      | ok _ =>
        rw [hresult] at hpublished
        exact hpublished
      | error fault =>
        rw [hresult] at hpublished
        exact hpublished
    | settle s => exact publishes_on_nil (publications_settle ..) _
  | nil =>
    cases turn with
    | arrive index => exact publishes_on_nil rfl _
    | stop result => exact publishes_finish rfl ..
    | suspend next due =>
      have hsuspended := publications_suspend e c t.token next due
      simp only [moveActing, deed?]
      cases (e.suspend c t.token next due).2 with
      | ok _ => exact publishes_finish hsuspended ..
      | error fault => exact publishes_on_nil hsuspended _

theorem publishes_moveDriving (e : Engine) (t : Task) (below : List Frame) (o : Origin) (c : Chain)
    (stage : Stage) :
    (e.moveDriving t below o c stage).Publishes e
      (Deed.announcements (e.deed? t.token c stage).toList) := by
  cases stage with
  | entering index =>
    have hnone : Deed.announcements (e.deed? t.token c (.entering index)).toList = [] := by
      simp only [deed?]
      split
      · rfl
      · split <;> rfl
    rw [hnone]
    simp only [moveDriving]
    split
    · exact publishes_on_nil rfl _
    · split
      · exact publishes_on_nil rfl _
      · exact publishes_on_nil (publications_record_of_none rfl) _
  | inside index b =>
    have hnone : Deed.announcements (e.deed? t.token c (.inside index b)).toList = [] := by
      cases b <;> rfl
    rw [hnone]
    exact publishes_moveInside ..
  | calling index next => rfl
  | acting plan => exact publishes_moveActing ..
  | halting fault => exact publishes_halt ..

/-- A chain that is given up publishes nothing. -/
theorem announcements_losses (fs : List Frame) :
    Deed.announcements ((losses fs).map Prod.snd) = [] := by
  refine Deed.announcements_eq_nil fun n hn => ?_
  obtain ⟨⟨c, d⟩, hd, hdeed⟩ := List.mem_map.1 hn
  obtain ⟨c', -, heq⟩ := List.mem_map.1 hd
  cases heq
  cases hdeed

theorem announcements_started (move : Move) :
    Deed.announcements (move.started.map Prod.snd) = [] := by
  unfold Move.started
  split <;> rfl

/-- **To look at a task publishes what its deeds say.** -/
theorem publishes_move (e : Engine) (t : Task) :
    (e.move t).Publishes e (Deed.announcements ((e.deedsOf t).map Prod.snd)) := by
  cases hp : t.parked with
  | true =>
    have hlooks := e.looks_move hp
    generalize e.deedsOf t = ds, e.told t = ts, e.move t = move at hlooks
    cases hlooks with
    | giveUp =>
      rw [announcements_losses]
      exact publishes_on_nil rfl _
    | takeUp => exact publishes_on_nil rfl _
    | wait => rfl
  | false =>
    rw [move_of_unparked hp]
    simp only [deedsOf, hp, Bool.false_eq_true, if_false]
    cases hframes : t.frames with
    | nil =>
      simp only [moveTop, hframes]
      exact (List.append_nil _).symm
    | cons f below =>
      cases f with
      | opening r q resuming =>
        rw [announcements_started, moveTop_opening hframes]
        exact publishes_moveOpening ..
      | driving o c stage =>
        rw [moveTop_driving hframes]
        have hdeeds : ((e.deed? t.token c stage).map (c, ·)).toList.map Prod.snd =
            (e.deed? t.token c stage).toList := by
          cases e.deed? t.token c stage <;> rfl
        simp only [hdeeds]
        exact publishes_moveDriving ..
      | receiving r k =>
        simp only [moveTop, hframes]
        split
        · exact publishes_answer_nil rfl ..
        · split
          · exact publishes_on_nil rfl _
          · exact publishes_answer_nil rfl ..
      | listening k =>
        simp only [moveTop, hframes]
        split
        · exact (List.append_nil _).symm
        · split
          · exact publishes_on_nil rfl _
          · exact (List.append_nil _).symm

/-! ## Acts and histories -/

/-- **An act publishes what its deeds say, and nothing else.** -/
theorem publications_act (e : Engine) (a : Act) :
    (e.act a).publications = e.publications ++ Deed.announcements ((e.deeds a).map Prod.snd) := by
  have nothing : ∀ {a : Act}, (e.act a).publications = e.publications → e.deeds a = [] →
      (e.act a).publications =
        e.publications ++ Deed.announcements ((e.deeds a).map Prod.snd) := by
    intro a hsame hnone
    rw [hsame, hnone]
    exact (List.append_nil _).symm
  cases a with
  | advance n =>
    cases ht : e.task? n with
    | none => exact nothing (by rw [act_advance_none ht]) (by simp only [deeds, ht])
    | some t =>
      have hmove := e.publishes_move t
      simp only [deeds, ht]
      rcases hresult : e.move t with _ | ⟨m, u⟩ | ⟨m, ending⟩ <;> rw [hresult] at hmove
      · rw [act_advance_blocked ht hresult, hmove, List.append_nil]
      · rw [act_advance_on ht hresult]
        exact hmove
      · rw [act_advance_over ht hresult]
        exact hmove
  | wake place =>
    refine nothing ?_ rfl
    simp only [act]
    split
    · exact publications_resumeContinuation ..
    · rfl
  | drop place =>
    have hsilent : Deed.announcements ((e.deeds (.drop place)).map Prod.snd) = [] := by
      simp only [deeds]
      split
      · rename_i timer htimer
        cases e.isCancelled timer.token <;> rfl
      · rfl
    rw [hsilent]
    exact (List.append_nil _).symm
  | cut n =>
    have hsilent : Deed.announcements ((e.deeds (.cut n)).map Prod.snd) = [] := by
      simp only [deeds]
      split
      · exact announcements_losses _
      · rfl
    rw [hsilent]
    exact (List.append_nil _).symm
  | cancelDelay d x =>
    refine nothing ?_ rfl
    simp only [act, cancelDelay]
    cases e.pending.get? (d, x) <;> rfl
  | _ => exact nothing rfl rfl

/-- **In the course of a history is published what the deeds say.** -/
theorem publications_after (e : Engine) (as : List Act) :
    (e.after as).publications =
      e.publications ++ Deed.announcements ((e.chronicle as).map Prod.snd) := by
  induction as generalizing e with
  | nil => exact (List.append_nil _).symm
  | cons a as ih =>
    rw [after_cons, ih, publications_act, chronicle, List.map_append, Deed.announcements_append,
      List.append_assoc]

/-- A chain publishes what is next in its plan. -/
theorem deed?_eq_published {token : Token} {stage : Stage} {n : Notice}
    (h : e.deed? token c stage = some (.published n)) :
    ∃ news es turn, stage = .acting ⟨.publish news :: es, turn⟩ ∧ n = c.notice news := by
  unfold deed? at h
  split at h
  case h_7 news es turn =>
    split at h
    · cases h
      exact ⟨news, es, turn, rfl, rfl⟩
    · cases h
  -- Nothing else publishes.
  all_goals grind

/-- A chain speaks of its own instance. -/
theorem inst_of_published {a : Act} {n : Notice} (hd : (c, .published n) ∈ e.deeds a) :
    n.inst = c.inst := by
  obtain ⟨-, t, -, -, -, -, stage, -, -, hdeed⟩ := task_of_work hd rfl
  obtain ⟨news, -, -, -, rfl⟩ := deed?_eq_published hdeed
  rfl

theorem inst_of_mem_chronicle {as : List Act} {n : Notice}
    (hd : (c, .published n) ∈ e.chronicle as) : n.inst = c.inst := by
  induction as generalizing e with
  | nil => cases hd
  | cons a as ih =>
    obtain hd | hd := List.mem_append.1 hd
    · exact inst_of_published hd
    · exact ih hd

/-- **An act publishes about an instance what the deeds for the instance say.** -/
theorem publicationsOf_act (e : Engine) (x : String) (a : Act) :
    (e.act a).publicationsOf x = e.publicationsOf x ++
      Deed.announcements (Deed.of (fun c => c.inst == x) (e.deeds a)) := by
  rw [publicationsOf, publications_act, List.filter_append,
    Deed.filter_announcements fun c n hd => inst_of_published hd]
  rfl

/-- **In the course of a history is published about an instance what its story says.** -/
theorem publicationsOf_after (e : Engine) (x : String) (as : List Act) :
    (e.after as).publicationsOf x =
      e.publicationsOf x ++ Deed.announcements (e.story x as) := by
  rw [publicationsOf, publications_after, List.filter_append,
    Deed.filter_announcements fun c n hd => inst_of_mem_chronicle hd]
  rfl

end Engine

end DurableFlow
