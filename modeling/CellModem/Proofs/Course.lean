import CellModem.Proofs.Outputs
import CellModem.Proofs.Refinement
import CellModem.Proofs.Story
import Mathlib.Data.List.Basic

/-!
# The course of a job

Nobody else does anything with the line while a task has it. So if it is written
down who does what with the line in a history, and when, then what is written
down of one job stands together, and it tells the story of the job's plan
(`followed`, `Followed.exists_story`).

What it means to be in time is a matter of the clock. If time passes only when
nobody can do anything, then whatever has a deadline comes to its end at the
first time from the deadline on that the clock shows, at the latest
(`Modem.Timely`). A clock that may skip times can show none before a later one;
one that shows the deadline itself leaves nothing going on behind it. And when
nobody can do anything, no deadline has come (`IsQuiet.lt_deadline`): that is
what carries the proof over the happenings in which time passes.
-/

namespace CellModem

deriving instance DecidableEq for Outcome

deriving instance DecidableEq for Output

/-- What a task does with the line, and when. -/
structure LogEntry where
  id : Nat
  time : Nat
  deed : Deed

/-- Something that a task did at a time. -/
def LogEntry.of (id : Nat) (d : Nat × Deed) : LogEntry := ⟨id, d.1, d.2⟩

namespace Modem

/-- What is done with the line in one happening. -/
def entries (m : Modem) : Happening → List LogEntry
  | .turn (.task id) => (m.tasks.find? (·.id == id)).elim [] fun t =>
    if (m.pollTask t).isSome then (m.deeds t).map (⟨id, m.now, ·⟩) else []
  | .turn .transmitter | .turn .receiver | .action _ => []

/-- What is done with the line in a history. -/
def log (m : Modem) : List Happening → List LogEntry
  | [] => []
  | x :: hs => m.entries x ++ (m.happen x).value.log hs

/-- The times that the clock shows in a history. -/
def clock (m : Modem) : List Happening → List Nat
  | [] => [m.now]
  | x :: hs => m.now :: (m.happen x).value.clock hs

/-- Whether a time is no later than need be for something that is due: if time
passes slowly, the clock has shown no earlier time at which it was due. -/
def Timely (m : Modem) (hs : List Happening) (due now : Nat) : Prop :=
  m.IsSlow hs → ∀ r ∈ m.clock hs, r < now → r < due

variable {timely : Nat → Nat → Prop} {m : Modem} {t : Task}
  {mine : List (Nat × Deed)}

/-! ## Time -/

theorem now_turned {m' : Modem} {outs : List Output} {stage? : Option Stage}
    (h : Turned m t outs m' stage?) : m'.now = m.now ∧ m'.begun = m.begun := by
  rw [h.value]
  cases stage? <;> exact ⟨rfl, rfl⟩

/-- Time passes only if somebody says so, and tasks that have begun
once have begun. -/
theorem now_happen (ho : m.Orderly) (x : Happening) :
    m.begun ≤ (m.happen x).value.begun ∧ ((m.happen x).value.now = m.now ∨
      ∃ ms, x = .action (.wait ms) ∧ (m.happen x).value.now = m.now + ms) := by
  rcases m.happen_cases x with ⟨job, rfl⟩ | ⟨id, rfl⟩ | ⟨ms, rfl⟩ | rfl |
      ⟨t, y, ht, rfl, _, hy, he⟩ | ⟨_, _, hkept⟩
  · show m.begun ≤ (m.begin job).value.begun ∧
        ((m.begin job).value.now = m.now ∨ _)
    rw [value_begin]
    exact ⟨Nat.le_succ _, Or.inl rfl⟩
  · exact ⟨Nat.le_refl _, Or.inl rfl⟩
  · exact ⟨Nat.le_refl _, Or.inr ⟨ms, rfl, rfl⟩⟩
  · rw [happen_receiver]
    have hr := received_receive m
    exact ⟨Nat.le_of_eq hr.begun.symm, Or.inl hr.now⟩
  · obtain ⟨stage?, hturn⟩ := turned_pollTask (ho.isOpen t ht) hy
    obtain ⟨hnow, hbegun⟩ := now_turned hturn
    rw [he]
    exact ⟨Nat.le_of_eq hbegun.symm, Or.inl hnow⟩
  · exact ⟨Nat.le_of_eq hkept.begun.symm, Or.inl hkept.now⟩

theorem le_now_happen (ho : m.Orderly) (x : Happening) :
    m.now ≤ (m.happen x).value.now := by
  rcases (now_happen ho x).2 with hnow | ⟨ms, _, hnow⟩
  · exact Nat.le_of_eq hnow.symm
  · rw [hnow]
    exact Nat.le_add_right m.now ms

theorem le_of_mem_clock {hs : List Happening} {r : Nat} (ho : m.Orderly)
    (h : r ∈ m.clock hs) : m.now ≤ r := by
  induction hs generalizing m with
  | nil => exact Nat.le_of_eq (List.mem_singleton.1 h).symm
  | cons x hs ih =>
      rcases List.mem_cons.1 h with rfl | hmem
      · exact Nat.le_refl _
      · exact Nat.le_trans (le_now_happen ho x) (ih (orderly_happen ho x) hmem)

/-- When all is quiet, nobody has waited long enough. -/
theorem IsQuiet.lt_deadline (h : m.IsQuiet) (ho : m.Orderly)
    (ht : t ∈ m.tasks) {due : Nat} (hdue : due ∈ t.stage.deadline?) :
    m.now < due := by
  have hstay := h.pollTask_eq_none ho ht
  obtain ⟨id, s⟩ := t
  refine Nat.lt_of_not_le fun hle => ?_
  cases s with
  | listening => cases hdue
  | waiting plan => cases hdue
  | running plan run =>
      have hmove := canMove_of_pollTask hstay
      have hrun : run.deadline = some due := hdue
      rw [Run.canMove, Run.isDue, hrun, Option.any_some,
        Bool.or_eq_false_iff] at hmove
      exact absurd hle (of_decide_eq_false hmove.2)
  | pausing plan deadline =>
      cases hdue
      rw [pollTask] at hstay
      dsimp only at hstay
      rw [if_pos hle] at hstay
      cases hstay

/-- When time passes, what is not due yet when all is quiet remains in time. -/
theorem Timely.happen {start : Modem} {all hs : List Happening}
    {x : Happening} {due : Nat} (h : start.Timely all due m.now)
    (ho : m.Orderly) (hslow : start.IsSlow all → m.IsSlow (x :: hs))
    (hclock : ∀ r ∈ start.clock all, r ≤ m.now ∨ r ∈ m.clock (x :: hs))
    (hquiet : m.IsQuiet → m.now < due) :
    start.Timely all due (m.happen x).value.now := by
  intro hall r hr hlt
  rcases (now_happen ho x).2 with hnow | ⟨ms, rfl, _⟩
  · rw [hnow] at hlt
    exact h hall r hr hlt
  · have hle : r ≤ m.now := by
      rcases hclock r hr with hle | hmem
      · exact hle
      · rcases List.mem_cons.1 hmem with rfl | hlater
        · exact Nat.le_refl _
        · exact absurd hlt
            (Nat.not_lt_of_le (le_of_mem_clock (orderly_happen ho _) hlater))
    exact Nat.lt_of_le_of_lt hle (hquiet ((isSlow_cons (hslow hall)).1 ms rfl))

/-! ## Who gets on -/

/-- When all is quiet, whoever waits waits for somebody who has the line. -/
theorem IsQuiet.isTaken (h : m.IsQuiet) (ho : m.Orderly) {id : Nat} {p : Plan}
    (hmem : ⟨id, .waiting p⟩ ∈ m.tasks) : m.isTaken = true := by
  have hstay :
      (if m.isTaken then none else some (m.carryOut id p.next)) = none :=
    h.pollTask_eq_none ho hmem
  cases hfree : m.isTaken with
  | true => rfl
  | false =>
      rw [hfree] at hstay
      cases hstay

/-! ## Who stays -/

/-- Whether a task has not come to its end. -/
def Has (m : Modem) (id : Nat) : Prop := ∃ s, ⟨id, s⟩ ∈ m.tasks

theorem Has.carryOut {id : Nat} (h : m.Has id) (move : Move) :
    (m.carryOut id move).value.Has id ∨
      ∃ outcome, .finished id outcome ∈ (m.carryOut id move).trace := by
  obtain ⟨s, hs⟩ := h
  cases move with
  | run timeout request rest =>
      rw [value_carryOut_run]
      exact Or.inl ⟨_, mem_putStage_self hs _ _⟩
  | pause ms rest =>
      exact Or.inl ⟨_, mem_putStage_self hs m.link (.pausing rest (m.now + ms))⟩
  | finish outcome => exact Or.inr ⟨outcome, List.mem_cons_self⟩

theorem Has.pollTask (ht : t ∈ m.tasks) {y : Traced Output Modem}
    (hy : m.pollTask t = some y) :
    y.value.Has t.id ∨ ∃ outcome, .finished t.id outcome ∈ y.trace := by
  have hmine (link : Link) : Has { m with link := link } t.id := ⟨t.stage, ht⟩
  rcases pollTask_cases hy with ⟨_, receipt, urcs, rfl⟩ | ⟨plan, _, rfl⟩ |
      ⟨plan, run, _, _, rfl⟩
  · exact (hmine _).carryOut _
  · exact (hmine m.link).carryOut _
  · cases hp : (run.poll m.now m.link).value with
    | mk run' rest =>
        obtain ⟨link, result?⟩ := rest
        cases result? with
        | none =>
            rw [(value_continueRun_of_none hp).1]
            exact Or.inl ⟨_, mem_putStage_self ht link (.running plan run')⟩
        | some result =>
            rw [(value_continueRun_of_some hp).1]
            refine ((hmine link).carryOut
              (plan.resume result).value).imp_right ?_
            rintro ⟨outcome, hmem⟩
            have hshown : (run.poll m.now m.link).shown.value =
                (run', link, some result) := hp
            rw [continueRun, Traced.trace_bind, hshown]
            exact ⟨outcome,
              List.mem_append_right _ (List.mem_append_right _ hmem)⟩

/-- Nobody is lost: a task that is not given up is there, or it has finished. -/
theorem Has.happen {id : Nat} (h : m.Has id) (ho : m.Orderly) {x : Happening}
    (hx : x ≠ .action (.cancel id)) : (m.happen x).value.Has id ∨
      ∃ outcome, .finished id outcome ∈ (m.happen x).trace := by
  obtain ⟨s, hs⟩ := h
  rcases m.happen_cases x with ⟨job, rfl⟩ | ⟨k, rfl⟩ | ⟨ms, rfl⟩ | rfl |
      ⟨t, y, ht, rfl, _, hy, he⟩ | ⟨_, _, hkept⟩
  · refine Or.inl ⟨s, ?_⟩
    show _ ∈ (m.begin job).value.tasks
    rw [value_begin]
    exact List.mem_append_left _ hs
  · have hne : id ≠ k := by
      rintro rfl
      exact hx rfl
    exact Or.inl ⟨s, List.mem_filter.2 ⟨hs, by simpa using hne⟩⟩
  · exact Or.inl ⟨s, hs⟩
  · rw [happen_receiver]
    refine Or.inl ⟨s, ?_⟩
    rw [(received_receive m).tasks]
    exact hs
  · rw [he]
    by_cases hid : t.id = id
    · subst hid
      exact Has.pollTask ht hy
    · obtain ⟨stage?, hturn⟩ := turned_pollTask (ho.isOpen t ht) hy
      exact Or.inl ⟨s,
        (hturn.mem_tasks ht).2 (Or.inl ⟨hs, fun he => hid he.symm⟩)⟩
  · refine Or.inl ⟨s, ?_⟩
    rw [hkept.tasks]
    exact hs

theorem Has.follow {id : Nat} {hs : List Happening} (h : m.Has id)
    (ho : m.Orderly) (hcancel : .action (.cancel id) ∉ hs) :
    (m.follow hs).value.Has id ∨
      ∃ outcome, .finished id outcome ∈ (m.follow hs).trace := by
  induction hs generalizing m with
  | nil => exact Or.inl h
  | cons x hs ih =>
      rw [Modem.follow, Traced.value_bind, Traced.trace_bind]
      rcases h.happen ho fun hx => hcancel (hx ▸ List.mem_cons_self) with
          hstays | ⟨outcome, hmem⟩
      · refine (ih hstays (orderly_happen ho x) fun hmem => ?_).imp_right ?_
        · exact hcancel (List.mem_cons_of_mem x hmem)
        · rintro ⟨outcome, hmem⟩
          exact ⟨outcome, List.mem_append_right _ hmem⟩
      · exact Or.inr ⟨outcome, List.mem_append_left _ hmem⟩

/-! ## A whole history -/

/-- Whether none of the entries is of a task. -/
def Lacks (id : Nat) (log : List LogEntry) : Prop := ∀ e ∈ log, e.id ≠ id

/-- What is written down of a task that began with a plan. Once it has the
line, and until it comes to its end or is given up, nothing is written down
of anybody else. -/
inductive Course (timely : Nat → Nat → Prop) (m : Modem) (id : Nat) (p : Plan) :
    List LogEntry → Prop
  | waiting {log} (hmem : ⟨id, .waiting p⟩ ∈ m.tasks) (hlog : Lacks id log) :
      Course timely m id p log
  | underway {before mine} {s : Stage} (hmem : ⟨id, s⟩ ∈ m.tasks)
      (hline : s.hasLine = true) (hbefore : Lacks id before)
      (hstory : Story timely p.next mine (some s))
      (hnow : ∀ due ∈ s.deadline?, timely due m.now) :
      Course timely m id p (before ++ mine.map (.of id))
  | gone {before mine after} (hgone : ∀ t ∈ m.tasks, t.id ≠ id)
      (hbefore : Lacks id before) (hafter : Lacks id after)
      (hmine : mine = [] ∨ ∃ stage?, Story timely p.next mine stage?) :
      Course timely m id p (before ++ mine.map (.of id) ++ after)

section Course

variable {id : Nat} {p : Plan} {log : List LogEntry}

theorem Lacks.append {log' : List LogEntry} (h : Lacks id log)
    (h' : Lacks id log') : Lacks id (log ++ log') :=
  fun e he => (List.mem_append.1 he).elim (h e) (h' e)

theorem lacks_nil (id : Nat) : Lacks id [] :=
  fun _ he => absurd he List.not_mem_nil

/-- What others do is written down behind, and while the task has the line
they do nothing. -/
theorem Course.others (h : Course timely m id p log) {m' : Modem}
    {others : List LogEntry}
    (htasks : ∀ t, t.id = id → (t ∈ m'.tasks ↔ t ∈ m.tasks))
    (hnow : ∀ t ∈ m.tasks, ∀ due ∈ t.stage.deadline?, timely due m.now →
      timely due m'.now)
    (hothers : Lacks id others)
    (hnil : ∀ t ∈ m.tasks, t.id = id → t.stage.hasLine = true → others = []) :
    Course timely m' id p (log ++ others) := by
  cases h with
  | waiting hmem hlog =>
      exact .waiting ((htasks _ rfl).2 hmem) (hlog.append hothers)
  | underway hmem hline hbefore hstory htimely =>
      rw [hnil _ hmem rfl hline, List.append_nil]
      exact .underway ((htasks _ rfl).2 hmem) hline hbefore hstory
        fun due hdue => hnow _ hmem due hdue (htimely due hdue)
  | gone hgone hbefore hafter hmine =>
      rw [List.append_assoc]
      refine .gone (fun t ht hid => ?_) hbefore (hafter.append hothers) hmine
      exact hgone t ((htasks t hid).1 ht) hid

/-- When a task is given up, its course is at an end. -/
theorem Course.removeTask (h : Course timely m id p log) :
    Course timely (m.removeTask id) id p log := by
  have hgone : ∀ t ∈ (m.removeTask id).tasks, t.id ≠ id := by
    intro t ht
    simpa using (List.mem_filter.1 ht).2
  cases h with
  | waiting hmem hlog =>
      have hend : Course timely (m.removeTask id) id p (log ++ [] ++ []) :=
        .gone hgone hlog (lacks_nil id) (Or.inl rfl)
      rwa [List.append_nil, List.append_nil] at hend
  | underway hmem hline hbefore hstory htimely =>
      have hend := Course.gone hgone hbefore (lacks_nil id) (Or.inr ⟨_, hstory⟩)
      rwa [List.append_nil] at hend
  | gone _ hbefore hafter hmine => exact .gone hgone hbefore hafter hmine

theorem Continued.course {before : List LogEntry} {m' : Modem}
    {stage? : Option Stage} (h : Continued timely m t.id p.next mine m' stage?)
    (ht : t ∈ m.tasks) (hbefore : Lacks t.id before)
    (hnow : ∀ due, m.now ≤ due → timely due m.now) :
    Course timely m' t.id p (before ++ mine.map (.of t.id)) := by
  have hvalue := h.value
  cases stage? with
  | none =>
      have hgone : ∀ u ∈ m'.tasks, u.id ≠ t.id := by
        intro u hu
        rw [hvalue] at hu
        rcases (mem_tasks_putStage ht).1 hu with ⟨_, hne⟩ | ⟨s, hs, _⟩
        · exact hne
        · cases hs
      have hend :=
        Course.gone hgone hbefore (lacks_nil t.id) (Or.inr ⟨_, h.story⟩)
      rwa [List.append_nil] at hend
  | some s =>
      have hmem : ⟨t.id, s⟩ ∈ m'.tasks := by
        rw [hvalue]
        exact mem_putStage_self ht m'.link s
      have htime : m'.now = m.now := by rw [hvalue]; rfl
      refine .underway hmem (h.hasLine s rfl) hbefore h.story fun due hdue => ?_
      rw [htime]
      exact hnow due (h.ahead s rfl due hdue)

theorem entries_of_stuck {x : Happening}
    (h : ∀ k, x = .turn (.task k) → m.poll (.task k) = none) :
    m.entries x = [] := by
  cases x with
  | action a => rfl
  | turn q =>
      cases q with
      | transmitter => rfl
      | receiver => rfl
      | task k =>
          have hpoll := h k rfl
          rw [poll] at hpoll
          rw [entries]
          cases hfind : m.tasks.find? (·.id == k) with
          | none => rfl
          | some t =>
              rw [hfind, Option.bind_some] at hpoll
              rw [Option.elim_some, hpoll]
              rfl

theorem entries_of_turn (hfind : m.tasks.find? (·.id == t.id) = some t)
    {y : Traced Output Modem} (hy : m.pollTask t = some y) :
    m.entries (.turn (.task t.id)) = ((m.deeds t).map (m.now, ·)).map
      (.of t.id) := by
  rw [entries, hfind, Option.elim_some, hy, List.map_map]
  rfl

/-- The task's own turn: it takes the line, or goes on with its story. -/
theorem Course.own_turn (h : Course timely m t.id p log) (ho : m.Orderly)
    (ht : t ∈ m.tasks) (hnow : ∀ due, m.now ≤ due → timely due m.now)
    {y : Traced Output Modem} (hy : m.pollTask t = some y) :
    Course timely y.value t.id p (log ++ ((m.deeds t).map (m.now, ·)).map
      (.of t.id)) := by
  cases h with
  | waiting hmem hlog =>
      have hs : t.stage = .waiting p :=
        congrArg Task.stage (ho.eq_of_id ht hmem rfl)
      obtain ⟨stage?, hnext⟩ := continued_carryOut timely m t.id p.next
      have hdeeds : m.deeds t = [p.next.deed] := by rw [deeds, hs]
      rcases pollTask_cases hy with
          ⟨hno, _⟩ | ⟨plan, ⟨hplan, _⟩ | ⟨due, hno, _⟩, rfl⟩ |
            ⟨plan, run, hno, _⟩
      · cases hs.symm.trans hno
      · cases hs.symm.trans hplan
        rw [hdeeds]
        exact hnext.course ht hlog hnow
      · cases hs.symm.trans hno
      · cases hs.symm.trans hno
  | @underway before mine s hmem hline hbefore hstory htimely =>
      have hs : s = t.stage := congrArg Task.stage (ho.eq_of_id hmem ht rfl)
      rw [hs] at hstory htimely
      obtain ⟨stage?, hnext⟩ := continued_pollTask hstory htimely hy
      rw [List.append_assoc, ← List.map_append]
      exact hnext.course ht hbefore hnow
  | gone hgone => exact absurd rfl (hgone t ht)

/-- Whatever happens, the course goes on. -/
theorem Course.happen (h : Course timely m id p log) (ho : m.Orderly)
    (hid : id < m.begun) (hnow : ∀ due, m.now ≤ due → timely due m.now)
    (x : Happening)
      (hlater : ∀ due, (m.IsQuiet → m.now < due) → timely due m.now →
        timely due (m.happen x).value.now) :
    Course timely (m.happen x).value id p (log ++ m.entries x) := by
  have htimely : ∀ t ∈ m.tasks, ∀ due ∈ t.stage.deadline?, timely due m.now →
      timely due (m.happen x).value.now :=
    fun t ht due hdue => hlater due fun hquiet => hquiet.lt_deadline ho ht hdue
  have hsame (hnil : m.entries x = [])
      (htasks : ∀ t, t.id = id → (t ∈ (m.happen x).value.tasks ↔ t ∈ m.tasks)) :
      Course timely (m.happen x).value id p (log ++ m.entries x) := by
    rw [hnil]
    exact h.others htasks htimely (lacks_nil id) fun _ _ _ _ => rfl
  rcases m.happen_cases x with ⟨job, rfl⟩ | ⟨k, rfl⟩ | ⟨ms, rfl⟩ | rfl |
      ⟨t, y, ht, rfl, hfind, hy, he⟩ | ⟨_, hstuck, hkept⟩
  · refine hsame rfl fun t hmine => ?_
    show t ∈ (m.begin job).value.tasks ↔ _
    rw [value_begin, List.mem_append, List.mem_singleton, or_iff_left]
    rintro rfl
    exact absurd hmine (Nat.ne_of_gt hid)
  · by_cases hk : k = id
    · subst hk
      show Course timely (m.removeTask k) k p (log ++ [])
      rw [List.append_nil]
      exact h.removeTask
    · refine hsame rfl fun t hmine => ?_
      show t ∈ (m.removeTask k).tasks ↔ _
      rw [Modem.removeTask, List.mem_filter, and_iff_left]
      simpa [hmine] using Ne.symm hk
  · exact hsame rfl fun _ _ => Iff.rfl
  · refine hsame rfl fun t _ => ?_
    rw [happen_receiver, (received_receive m).tasks]
  · rw [entries_of_turn hfind hy]
    by_cases hk : t.id = id
    · subst hk
      rw [he]
      exact h.own_turn ho ht hnow hy
    · obtain ⟨stage?, hturn⟩ := turned_pollTask (ho.isOpen t ht) hy
      refine h.others (fun u hu => ?_) htimely ?_ fun u hu hmine hline => ?_
      · rw [he, hturn.mem_tasks ht]
        constructor
        · rintro (⟨hold, _⟩ | ⟨s, _, rfl⟩)
          · exact hold
          · exact absurd hu hk
        · exact fun hold => Or.inl ⟨hold, fun hut => hk (hut.symm.trans hu)⟩
      · intro e hmem
        obtain ⟨d, _, rfl⟩ := List.mem_map.1 hmem
        exact hk
      · rw [ho.deeds_eq_nil hu hline ht (by rw [hmine]; exact hk) hy]
        rfl
  · refine hsame (entries_of_stuck hstuck) fun t _ => ?_
    rw [hkept.tasks]

/-- A task that is watched does not listen. -/
theorem Course.ne_listening (h : Course timely m id p log) (ho : m.Orderly)
    (ht : t ∈ m.tasks) (hid : t.id = id) : t.stage ≠ .listening := by
  intro hs
  cases h with
  | waiting hmem =>
      rw [ho.eq_of_id ht hmem hid] at hs
      cases hs
  | underway hmem hline =>
      have hmine : t.stage.hasLine = true := by
        rw [ho.eq_of_id ht hmem hid]
        exact hline
      rw [hs] at hmine
      cases hmine
  | gone hgone => exact hgone t ht hid

end Course

/-- What is known of a task that is watched: it is written down what it does,
how it finishes too. -/
structure Followed (timely : Nat → Nat → Prop) (m : Modem) (id : Nat) (p : Plan)
    (log : List LogEntry) (outs : List Output) : Prop where
  orderly : m.Orderly
  known : id < m.begun
  course : Course timely m id p log
  finished : ∀ outcome, .finished id outcome ∈ outs →
    ∃ t, ⟨id, t, .finishes outcome⟩ ∈ log

section Followed

variable {id : Nat} {p : Plan} {log : List LogEntry} {outs : List Output}

/-- A task reports that it has finished in its own turn only. -/
theorem finished_happen {x : Happening} {outcome : Outcome}
    (h : .finished id outcome ∈ (m.happen x).trace) :
    ∃ t y, t ∈ m.tasks ∧ t.id = id ∧
      m.entries x = ((m.deeds t).map (m.now, ·)).map (.of t.id) ∧
      m.pollTask t = some y ∧ .finished id outcome ∈ y.trace := by
  have hsource := m.isFrom_happen x _ h
  rcases m.happen_cases x with ⟨job, rfl⟩ | ⟨k, rfl⟩ | ⟨ms, rfl⟩ | rfl |
      ⟨t, y, ht, rfl, hfind, hy, he⟩ | ⟨_, hstuck, _⟩
  · cases hsource
  · cases hsource
  · cases hsource
  · cases hsource
  · rw [he] at h
    exact ⟨t, y, ht, (finished_pollTask hy h).1.symm,
      entries_of_turn hfind hy, hy, h⟩
  · cases x with
    | action a => cases hsource
    | turn q =>
        cases q with
        | transmitter => cases hsource
        | receiver => cases hsource
        | task k =>
            rw [Modem.happen, hstuck k rfl] at h
            cases h

theorem Followed.happen (h : Followed timely m id p log outs)
    (hnow : ∀ due, m.now ≤ due → timely due m.now) (x : Happening)
    (hlater : ∀ due, (m.IsQuiet → m.now < due) → timely due m.now →
      timely due (m.happen x).value.now) :
    Followed timely (m.happen x).value id p (log ++ m.entries x)
      (outs ++ (m.happen x).trace) where
  orderly := orderly_happen h.orderly x
  known := Nat.lt_of_lt_of_le h.known (now_happen h.orderly x).1
  course := h.course.happen h.orderly h.known hnow x hlater
  finished := by
    intro outcome hmem
    rcases List.mem_append.1 hmem with hold | hnew
    · obtain ⟨t, ht⟩ := h.finished outcome hold
      exact ⟨t, List.mem_append_left _ ht⟩
    · obtain ⟨t, y, ht, hid, hentries, hy, hy'⟩ := finished_happen hnew
      have hdeed :=
        (finished_pollTask hy hy').2 (h.course.ne_listening h.orderly ht hid)
      refine ⟨m.now, List.mem_append_right _ ?_⟩
      rw [hentries, ← hid]
      exact List.mem_map_of_mem (List.mem_map_of_mem hdeed)

/-- What is known of a task stays known over a history, with the
history's own clock. -/
theorem Followed.follow {start : Modem} {all : List Happening}
    (hs : List Happening) (h : Followed (start.Timely all) m id p log outs)
    (hslow : start.IsSlow all → m.IsSlow hs)
    (hclock : ∀ r ∈ start.clock all, r ≤ m.now ∨ r ∈ m.clock hs) :
    Followed (start.Timely all) (m.follow hs).value id p (log ++ m.log hs)
      (outs ++ (m.follow hs).trace) := by
  induction hs generalizing m log outs with
  | nil =>
      rw [Modem.log, Modem.follow, Traced.value_pure, Traced.trace_pure,
        List.append_nil, List.append_nil]
      exact h
  | cons x hs ih =>
      have hnow : ∀ due, m.now ≤ due → start.Timely all due m.now :=
        fun due hle _ r _ hlt => Nat.lt_of_lt_of_le hlt hle
      have hx := h.happen hnow x fun due hquiet htimely =>
        htimely.happen h.orderly hslow hclock hquiet
      rw [Modem.log, Modem.follow, Traced.value_bind, Traced.trace_bind,
        ← List.append_assoc, ← List.append_assoc]
      refine ih hx (fun hall => (isSlow_cons (hslow hall)).2) fun r hr => ?_
      have hle := le_now_happen h.orderly x
      rcases hclock r hr with hpast | hmem
      · exact Or.inl (Nat.le_trans hpast hle)
      · rcases List.mem_cons.1 hmem with rfl | hlater
        · exact Or.inl hle
        · exact Or.inr hlater

end Followed

end Modem

end CellModem
