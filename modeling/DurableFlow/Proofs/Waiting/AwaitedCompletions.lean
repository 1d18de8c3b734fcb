import DurableFlow.Proofs.NestedRuns.UnawaitedCalls

/-!
# Where a completion is waited for

A call that waits for a completion stays the outermost one of its task, and nobody else waits for
that completion (`Task.IsRooted`). Main statements: a turn leaves what frames wait for in its place
(`Engine.Turns.posts`), and so does every act, as long as the runner is held from outside
(`Engine.IsRooted.act`).
-/

namespace DurableFlow

variable {n : Nat} {k : Option CompletionId}

/-! ## What frames wait for -/

/-- What a frame waits for on behalf of a call, or will, and the runner that it keeps alive. -/
structure Post where
  receiver : Option CompletionId
  runner : Option RunnerId

/-- The completion is waited for by the outermost of some frames only, which is of the task of the
run and keeps the runner of the run alive. -/
structure Post.Rooted (n : Nat) (r : RunnerId) (k : Option CompletionId) (number : Nat)
    (ps : List Post) : Prop where
  inner : ∀ j ∈ k, ∀ p ∈ ps.dropLast, p.receiver ≠ some j
  outer : ∀ j ∈ k, ∀ p ∈ ps, p.receiver = some j → p.runner = some r ∧ number = n

namespace Post.Rooted

variable {r : RunnerId} {number : Nat} {ps ps' : List Post} {p : Post}

theorem suffix (h : Rooted n r k number ps) (hps : ps' <:+ ps) : Rooted n r k number ps' where
  inner j hj p hp := by
    obtain ⟨l, rfl⟩ := hps
    refine h.inner j hj p ?_
    rw [List.dropLast_append_of_ne_nil (List.ne_nil_of_mem (List.dropLast_subset _ hp))]
    exact List.mem_append_right l hp
  outer j hj p hp := h.outer j hj p (hps.subset hp)

/-- Something that has nothing to do with the completion may be put above. -/
theorem cons (h : Rooted n r k number ps) (hp : ∀ j ∈ k, p.receiver ≠ some j) :
    Rooted n r k number (p :: ps) where
  inner j hj q hq := by
    cases ps with
    | nil => cases hq
    | cons p' ps =>
      rw [List.dropLast_cons_cons] at hq
      rcases List.mem_cons.1 hq with rfl | hq
      · exact hp j hj
      · exact h.inner j hj q hq
  outer j hj q hq hqj := by
    rcases List.mem_cons.1 hq with rfl | hq
    · exact absurd hqj (hp j hj)
    · exact h.outer j hj q hq hqj

end Post.Rooted

def Frame.post (f : Frame) : Post := ⟨f.receiver?, f.runner?⟩

def Task.posts (t : Task) : List Post := t.frames.map Frame.post

/-- The completion is waited for, or will be, by the outermost frame of the task of the run. -/
def Task.IsRooted (n : Nat) (r : RunnerId) (k : Option CompletionId) (t : Task) : Prop :=
  Post.Rooted n r k t.number t.posts

/-- A frame stays in its place when its chain goes on. -/
theorem Frame.posts_driving (o : Origin) (c c' : Chain) (stage stage' : Stage)
    (below : List Frame) :
    (driving o c stage :: below).map post = (driving o c' stage' :: below).map post := by
  cases o <;> rfl

/-- The end of a call leaves frames in their places. -/
theorem Frame.posts_resumed (reply : Reply) (below : List Frame) :
    (resumed reply below).map post <:+ below.map post := by
  unfold resumed
  split
  · exact ⟨[], posts_driving ..⟩
  · exact List.nil_suffix

theorem Frame.posts_departed (o : Origin) (c : Chain) (stage : Stage) (reply : Reply)
    (below : List Frame) :
    (departed o reply below).map post <:+ (driving o c stage :: below).map post := by
  unfold departed
  split
  · exact List.suffix_rfl
  · exact (posts_resumed reply below).trans (List.suffix_cons _ _)

/-- **A turn leaves frames in their places**, or puts one above them or above those below an
opening, which waits for nothing or for a completion that has just been made. -/
theorem Engine.Turns.posts {e : Engine} {t : Task} {ds : List (Chain × Deed)}
    {rested : Option (Timer Continuation)} {frames : List Frame}
    (h : e.Turns t ds rested frames) :
    frames.map Frame.post <:+ t.posts ∨ ∃ p ps, frames.map Frame.post = p :: ps ∧
      (p.receiver = none ∨ p.receiver = some ⟨e.next⟩) ∧
        (ps = t.posts ∨ ∃ runner, t.posts = ⟨none, runner⟩ :: ps) := by
  unfold Task.posts
  cases h with
  | look _ => exact .inl List.suffix_rfl
  | @abandon fs o c stage ht hs hp hc =>
    refine .inl ?_
    rw [ht, List.map_append]
    exact List.IsSuffix.trans ⟨[], Frame.posts_driving ..⟩ (List.suffix_append _ _)
  | decline ht => exact .inl (ht ▸ (Frame.posts_resumed _ _).trans (List.suffix_cons _ _))
  | start ht hc hcontext =>
    rw [ht]
    exact .inr ⟨_, _, rfl, hc, .inr ⟨_, rfl⟩⟩
  | stay ht hb => exact .inl (ht ▸ ⟨[], Frame.posts_driving ..⟩)
  | launch ht =>
    rw [ht]
    exact .inr ⟨_, _, rfl, .inl rfl, .inl (Frame.posts_driving ..)⟩
  | go ht _ _ _ _ => exact .inl (ht ▸ ⟨[], Frame.posts_driving ..⟩)
  | rest ht => exact .inl (ht ▸ Frame.posts_departed _ _ _ _ _)
  | stop ht => exact .inl (ht ▸ Frame.posts_departed _ _ _ _ _)
  | halt ht => exact .inl (ht ▸ (Frame.posts_resumed _ _).trans (List.suffix_cons _ _))
  | panic ht => exact .inl (ht ▸ (Frame.posts_resumed _ _).trans (List.suffix_cons _ _))
  | receive ht => exact .inl (ht ▸ (Frame.posts_resumed _ _).trans (List.suffix_cons _ _))

namespace Task

variable {r : RunnerId} {t : Task} {j : CompletionId} {f : Frame} {below : List Frame}

theorem IsRooted.of_top (h : t.IsRooted n r (some j)) (hframes : t.frames = f :: below)
    (hf : f.receiver? = some j) : t.frames = [f] ∧ f.runner? = some r ∧ t.number = n := by
  have hmem : f.post ∈ t.posts := List.mem_map_of_mem (hframes ▸ List.mem_cons_self)
  refine ⟨?_, h.outer j rfl _ hmem hf⟩
  cases below with
  | nil => exact hframes
  | cons g rest =>
    refine absurd hf (h.inner j rfl f.post ?_)
    rw [posts, hframes, List.map_cons, List.map_cons, List.dropLast_cons_cons]
    exact List.mem_cons_self

end Task

theorem Frame.eq_nil_of_resumed {reply : Reply} {below : List Frame}
    (hcalling : ∀ g ∈ below, Frame.isCalling g = true) (h : resumed reply below = []) :
    below = [] := by
  cases below with
  | nil => rfl
  | cons g rest =>
    have hg := hcalling g List.mem_cons_self
    cases g with
    | driving o c stage =>
      cases stage with
      | calling i next => cases h
      | _ => cases hg
    | _ => cases hg

namespace Engine

section

variable {S : Standard} {e : Engine} {j : CompletionId} {t u : Task} {ds : List (Chain × Deed)}
  {rested : Option (Timer Continuation)} {last : Option RunnerId}

/-- The outermost frame of a task stays so for as long as there is one. -/
theorem Turns.getLast?_posts (h : e.Turns t ds rested u.frames) (hu : u.frames ≠ [])
    (hlast : t.posts.getLast? = some ⟨some j, last⟩) :
    u.posts.getLast? = some ⟨some j, last⟩ := by
  have hne : u.posts ≠ [] := by simpa [Task.posts] using hu
  obtain ⟨l, hl⟩ | ⟨p, ps, hcons, -, hps⟩ := h.posts
  · rw [← hlast, ← hl]
    exact (List.getLast?_append_of_ne_nil l hne).symm
  · have hsame : ps.getLast? = t.posts.getLast? ∧ ps ≠ [] := by
      obtain rfl | ⟨runner, hps⟩ := hps
      · refine ⟨rfl, ?_⟩
        intro hnil
        rw [hnil] at hlast
        cases hlast
      · cases ps with
        | nil =>
          rw [hps] at hlast
          cases hlast
        | cons p' ps =>
          rw [hps]
          exact ⟨(List.getLast?_cons_cons).symm, List.cons_ne_nil _ _⟩
    show (u.frames.map Frame.post).getLast? = _
    rw [hcons, ← hlast, ← hsame.1]
    exact List.getLast?_append_of_ne_nil [p] hsame.2

/-- A call is over only by a fault or a panic of its chain, or once it is told. -/
theorem Turns.single_of_nil (h : e.Turns t ds rested []) (hs : t.Sound S)
    (hlast : t.posts.getLast? = some ⟨some j, last⟩) :
    ∃ f, t.frames = [f] ∧ f.receiver? = some j ∧
      ((∃ o c i context payload, f = .driving o c (.inside i (.panic context payload))) ∨
        (∃ o c fault, f = .driving o c (.halting fault)) ∨ ∃ r k, f = .receiving r k) := by
  have single : ∀ {f : Frame} {below : List Frame}, t.frames = f :: below → below = [] →
      t.frames = [f] ∧ f.receiver? = some j := by
    rintro f below hframes rfl
    rw [Task.posts, hframes] at hlast
    exact ⟨hframes, congrArg Post.receiver (Option.some.inj hlast)⟩
  have resumed : ∀ {f : Frame} {below : List Frame} {reply : Reply}, t.frames = f :: below →
      Frame.resumed reply below = [] → t.frames = [f] ∧ f.receiver? = some j :=
    fun hframes hnil => single hframes (Frame.eq_nil_of_resumed (calling_of_sound hs hframes) hnil)
  -- A call that waits for the completion stays when its chain has left.
  have departed : ∀ {o : Origin} {c : Chain} {stage : Stage} {below : List Frame} {reply : Reply},
      t.frames = .driving o c stage :: below → Frame.departed o reply below ≠ [] := by
    intro o c stage below reply hframes hnil
    unfold Frame.departed at hnil
    split at hnil
    · cases hnil
    · rename_i hcall
      obtain ⟨-, hreceiver⟩ := resumed hframes hnil
      cases o with
      | call r' receiver =>
        obtain rfl : receiver = some j := hreceiver
        exact hcall r' j rfl
      | direct => cases hreceiver
      | continuation => cases hreceiver
  obtain ⟨frames, hnil, h⟩ : ∃ frames, frames = [] ∧ e.Turns t ds rested frames := ⟨_, rfl, h⟩
  cases h with
  | look _ =>
    rw [Task.posts, hnil] at hlast
    cases hlast
  | abandon _ _ _ _ => cases hnil
  | decline hframes =>
    obtain ⟨-, hreceiver⟩ := resumed hframes hnil
    cases hreceiver
  | start _ _ _ => cases hnil
  | stay _ _ => cases hnil
  | launch _ => cases hnil
  | go _ _ _ _ _ => cases hnil
  | rest hframes => exact absurd hnil (departed hframes)
  | stop hframes => exact absurd hnil (departed hframes)
  | halt hframes =>
    obtain ⟨hone, hreceiver⟩ := resumed hframes hnil
    exact ⟨_, hone, hreceiver, .inr (.inl ⟨_, _, _, rfl⟩)⟩
  | panic hframes =>
    obtain ⟨hone, hreceiver⟩ := resumed hframes hnil
    exact ⟨_, hone, hreceiver, .inl ⟨_, _, _, _, _, rfl⟩⟩
  | receive hframes =>
    obtain ⟨hone, hreceiver⟩ := resumed hframes hnil
    exact ⟨_, hone, hreceiver, .inr (.inr ⟨_, _, rfl⟩)⟩

end

/-! ## The completion stays where it is -/

variable {e : Engine} {r : RunnerId}

/-- Everything in an engine that has to do with the completion is in its place. -/
structure IsRooted (n : Nat) (r : RunnerId) (k : Option CompletionId) (e : Engine) : Prop where
  tasks : ∀ t ∈ e.tasks, t.IsRooted n r k
  held : r ∈ e.held
  lt_next : ∀ j ∈ k, j.number < e.next
  number_lt : n < e.next

/-- **The completion stays where it is**, unless its runner is released from outside. -/
theorem IsRooted.act {S : Standard} (h : e.IsRooted n r k) (hs : e.Sound S) {a : Act}
    (ha : a ≠ .releaseRunner r) : (e.act a).IsRooted n r k where
  tasks u hu := by
    -- A task that starts waits for nothing.
    have single : ∀ {f : Frame}, u.frames = [f] → f.receiver? = none → u.IsRooted n r k := by
      intro f hframes hf
      have hposts : u.posts = [f.post] := by rw [Task.posts, hframes, List.map_singleton]
      refine ⟨fun j hj p hp => ?_, fun j hj p hp hpj => ?_⟩
      · rw [hposts] at hp
        cases hp
      · rw [hposts, List.mem_singleton] at hp
        rw [hp] at hpj
        cases hf.symm.trans hpj
    obtain hold | ⟨t, ht, -, m', hmove⟩ | ⟨-, ⟨token, f, hopening, hframes⟩ | ⟨c, i, hframes⟩⟩ :=
      hs.task_of_act hu
    · exact h.tasks u hold
    · obtain ⟨_, _, -, hturns, hnumber, -⟩ := turned_of_on (hs.tasks t ht) hmove
      have hrooted : Post.Rooted n r k u.number t.posts := hnumber ▸ h.tasks t ht
      obtain hposts | ⟨p, ps, hcons, hp, hps⟩ := hturns.posts
      · exact hrooted.suffix hposts
      · have hps : ps <:+ t.posts := by
          obtain rfl | ⟨runner, hps⟩ := hps
          · exact List.suffix_rfl
          · rw [hps]
            exact List.suffix_cons _ _
        show Post.Rooted n r k u.number (u.frames.map Frame.post)
        rw [hcons]
        refine (hrooted.suffix hps).cons fun j hj hpj => ?_
        obtain hnone | hfresh := hp
        · cases hnone.symm.trans hpj
        · obtain rfl := Option.some.inj (hpj.symm.trans hfresh)
          exact Nat.lt_irrefl _ (h.lt_next _ hj)
    · refine single hframes ?_
      cases a with
      | run => cases hopening; rfl
      | resume => cases hopening; rfl
      | _ => cases hopening
    · exact single hframes rfl
  held := (hs.retains a).held r h.held ha
  lt_next j hj := (h.lt_next j hj).trans_le (hs.next_le a)
  number_lt := h.number_lt.trans_le (hs.next_le a)

end Engine

end DurableFlow
