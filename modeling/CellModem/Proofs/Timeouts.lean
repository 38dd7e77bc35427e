import CellModem.Proofs.Course

/-!
# The timeouts of a session

A session runs its calls in a row. Each has its own timeout, if one was given
for it, and otherwise that of the session, whatever the timeouts of the calls
before it were and whatever became of them (`session_timeouts`). For a call
leaves behind the timeout that it has found (`Guard.restore_during`). A call
that fails is only another result: the next call begins at the same time, and
the results are reported in the order of the calls.

A call fails for lack of time only if it has a timeout, at a time when that is
over, and if it has not taken a final result before. Nor does it go on for
longer: it has ended when all is quiet at a time from its deadline on, and if it
is polled at such a time, it ends. With a clock that goes on only when all is
quiet, it ends at the first such time that the clock shows, so never behind its
deadline if the clock shows that.

Before the first call the session has to get the line. When all is quiet, it
waits only while somebody else has the line, and when the line is free, a poll
gives it the line or finishes it.
-/

namespace CellModem

/-- The request of a call and the timeout that is to apply to it. -/
def SessionEntry.call (timeout : Timeout) (e : SessionEntry) :
    Request × Timeout :=
  (e.request.value, e.timeout.getD timeout)

namespace Served

/-- The request that was run and the timeout that it began with. -/
def call (c : Served) : Request × Timeout := (c.request, c.timeout)

/-- What may go on for ever does not fail for lack of time. -/
theorem Sound.ne_timeout {timely : Nat → Nat → Prop} {c : Served}
    (h : c.Sound timely) (hnever : c.timeout = .never) :
    c.result ≠ .error .timeout := by
  intro hresult
  obtain ⟨_, due, hdue, _⟩ := h.timesOut hresult
  rw [hnever] at hdue
  cases hdue

end Served

/-- What a session does when some of its calls have come to their results: it
runs the next one, or there is none left and it reports what they came to. -/
inductive Onward (calls : List (Request × Timeout))
    (results : List (Except Failure Response)) (served : List Served) :
    List (Nat × Deed) → Option Stage → Prop
  | runs {q timeout rest} (t : Nat) (takings : List (Nat × Line)) (run : Run)
      (hcall : served.map Served.call ++ [(q, timeout)] <+: calls)
      (hrun : run.Pending q timeout t (takings.map Prod.snd)) :
      Onward calls results served ((t, .begins q timeout) :: takings.map taking)
        (some (.running rest run))
  | reports (t : Nat) (hcalls : served.map Served.call = calls) :
      Onward calls results served
        [(t, .finishes (.session (results ++ served.map (·.result))))] none

namespace Onward

variable {calls : List (Request × Timeout)}
  {results : List (Except Failure Response)} {served : List Served}
  {current : List (Nat × Deed)} {stage? : Option Stage}

/-- One more call before those that were served. -/
theorem cons {c : Served}
    (h : Onward calls (results ++ [c.result]) served current stage?) :
    Onward (c.call :: calls) results (c :: served) current stage? := by
  cases h with
  | runs t takings run hcall hrun =>
      exact .runs t takings run (List.cons_prefix_cons.2 ⟨rfl, hcall⟩) hrun
  | reports t hcalls =>
      rw [List.append_assoc]
      exact .reports t (congrArg (c.call :: ·) hcalls)

end Onward

/-- Whether each of the calls in a row begins when the one before it ends, and
what follows does so too. -/
def InARow : List Served → List (Nat × Deed) → Prop
  | [], _ => True
  | c :: served, current =>
    (∀ d ∈ (served.flatMap Served.deeds ++ current).head?, d.1 = c.ended) ∧
      InARow served current

/-- The story of a session is that of its calls. -/
theorem Story.session {timely : Nat → Nat → Prop} {timeout : Timeout}
    {entries : List SessionEntry} {results : List (Except Failure Response)}
    {deeds : List (Nat × Deed)} {stage? : Option Stage}
    (h : Story timely (Plan.session (.of timeout) entries results).next
      deeds stage?) :
    ∃ served current, deeds = served.flatMap Served.deeds ++ current ∧
      (∀ c ∈ served, c.Sound timely) ∧ InARow served current ∧
      Onward (entries.map (SessionEntry.call timeout)) results served
        current stage? := by
  induction entries generalizing results deeds with
  | nil =>
      cases h with
      | finish t =>
          refine ⟨[], _, rfl, fun _ h => absurd h List.not_mem_nil, trivial, ?_⟩
          have hall : Onward [] results []
              [(t, .finishes (.session (results ++ [])))] none :=
            .reports t rfl
          rwa [List.append_nil] at hall
  | cons e entries ih =>
      rcases h.run_cases with ⟨t, takings, run, hrun, rfl, rfl⟩ |
          ⟨c, later, hrequest, htimeout, hc, rfl, hnext, hrest⟩
      · refine ⟨[], _, rfl, fun _ h => absurd h List.not_mem_nil, trivial,
          .runs t takings run ?_ hrun⟩
        rw [Guard.timeout_during]
        exact List.cons_prefix_cons.2 ⟨rfl, List.nil_prefix⟩
      · rw [Plan.resume, Guard.restore_during] at hrest
        obtain ⟨served, current, rfl, hserved, hrow, honward⟩ := ih hrest
        have hcall : e.call timeout = c.call := by
          rw [Served.call, hrequest, htimeout, Guard.timeout_during]
          rfl
        refine ⟨c :: served, current, ?_, ?_, ⟨hnext, hrow⟩, ?_⟩
        · rw [List.flatMap_cons, List.append_assoc]
        · exact List.forall_mem_cons.2 ⟨hc, hserved⟩
        · rw [List.map_cons, hcall]
          exact honward.cons

namespace Modem

end Modem

end CellModem
