import CellModem.Proofs.Course
import Mathlib.Data.List.Chain

/-!
# Bringing the modem up

A modem that has just been switched on answers nothing for a while. So it is
probed until it answers, eleven times at most, and only then its echo is
switched off. Whatever the modem does and whoever else waits for the line, a
bring-up that has come to its end has run some probes that failed, with a pause
behind each, and one more, and what follows depends on that one
(`bring_up_course`). A probe has a timeout of its own, which is gone when the
echo is switched off.

The proof goes along the failed probes. What a probe leads to depends on how
many have failed before, so that number is kept with what is claimed of the
rest (`BroughtUp`).
-/

namespace CellModem

namespace Served

/-- What is done about a probe that failed: it is run, and then
there is a pause. -/
def attempt (c : Served) : List (Nat × Deed) :=
  c.deeds ++ [(c.ended, .pauses 500)]

/-- Whether a request is a probe, and came to its result within its second. -/
structure IsProbe (timely : Nat → Nat → Prop) (c : Served) : Prop where
  request : c.request = .attention
  timeout : c.timeout = .after 1000
  sound : c.Sound timely

end Served

/-- What follows the last probe, if so many have failed before it. If it
has succeeded, the echo is switched off, and what that comes to is the
outcome. If it has failed, it was the last that there may be, and its error
is the outcome. -/
inductive Conclusion (timely : Nat → Nat → Prop) (failed : Nat)
    (last : Served) : List (Nat × Deed) → Outcome → Prop
  | answered {response : Response} (echo : Served)
      (hlast : last.result = .ok response)
      (hrequest : echo.request = .setEcho false)
      (htimeout : echo.timeout = .after 5000) (hsound : echo.Sound timely)
      (hbegan : echo.began = last.ended) :
      Conclusion timely failed last
        (echo.deeds ++
          [(echo.ended, .finishes (.broughtUp (echo.result.map fun _ => ())))])
        (.broughtUp (echo.result.map fun _ => ()))
  | unanswered {failure : Failure} (hlast : last.result = .error failure)
      (hall : failed = 10) :
      Conclusion timely failed last
        [(last.ended, .finishes (.broughtUp (.error failure)))]
        (.broughtUp (.error failure))

/-- What a bring-up does from some point on to its end, if so many probes
have failed before. -/
structure BroughtUp (timely : Nat → Nat → Prop) (before : Nat)
    (failed : List Served) (last : Served) (ending : List (Nat × Deed))
    (outcome : Outcome) : Prop where
  few : before + failed.length ≤ 10
  failures : ∀ c ∈ failed, ∃ failure, c.result = .error failure
  probes : ∀ c ∈ failed ++ [last], c.IsProbe timely
  /-- The next probe begins when half a second has passed, and then at once. -/
  paced : List.IsChain (fun c next => c.ended + 500 ≤ next.began ∧
    timely (c.ended + 500) next.began) (failed ++ [last])
  conclusion : Conclusion timely (before + failed.length) last ending outcome

section Story

variable {timely : Nat → Nat → Prop} {before : Nat} {failed : List Served}
  {c last : Served} {deeds ending : List (Nat × Deed)} {outcome : Outcome}

/-- The outcome is what a bring-up finishes with. -/
theorem Conclusion.finishes {retries : Nat}
    (h : Conclusion timely retries last ending outcome) :
    ∃ t, (t, .finishes outcome) ∈ ending := by
  cases h with
  | answered echo =>
      exact ⟨echo.ended, List.mem_append_right _ List.mem_cons_self⟩
  | unanswered => exact ⟨last.ended, List.mem_cons_self⟩

namespace BroughtUp

/-- A bring-up that ends with its next probe. -/
theorem once (hfew : before ≤ 10) (hc : c.IsProbe timely)
    (hconclusion : Conclusion timely before c ending outcome) :
    BroughtUp timely before [] c ending outcome where
  few := hfew
  failures := fun _ hmem => absurd hmem List.not_mem_nil
  probes := List.forall_mem_cons.2 ⟨hc, fun _ hmem =>
    absurd hmem List.not_mem_nil⟩
  paced := List.isChain_singleton c
  conclusion := hconclusion

/-- A bring-up whose next probe fails and is repeated. -/
theorem again (hc : c.IsProbe timely)
    (hfailure : ∃ failure, c.result = .error failure)
      (hpause : ∀ next ∈ (failed ++ [last]).head?, c.ended + 500 ≤ next.began ∧
        timely (c.ended + 500) next.began)
    (h : BroughtUp timely (before + 1) failed last ending outcome) :
    BroughtUp timely before (c :: failed) last ending outcome where
  few := by
    have hfew := h.few
    rw [List.length_cons]
    omega
  failures := List.forall_mem_cons.2 ⟨hfailure, h.failures⟩
  probes := List.forall_mem_cons.2 ⟨hc, h.probes⟩
  paced := List.isChain_cons.2 ⟨hpause, h.paced⟩
  conclusion := by
    rw [List.length_cons, Nat.add_comm failed.length, ← Nat.add_assoc]
    exact h.conclusion

end BroughtUp

theorem Plan.value_resume_echoOff (guard : Guard)
    (result : Except Failure Response) :
    ((Plan.echoOff guard).resume result).value =
      .finish (.broughtUp (result.map fun _ => ())) := by
  cases result <;> rfl

/-- A probe that has succeeded is followed by the command that
switches the echo off. -/
theorem Story.echoOff {response : Response} (hlast : last.result = .ok response)
    (hbegan : ∀ d ∈ deeds.head?, d.1 = last.ended)
    (h : Story timely (Plan.echoOff (.of .standard)).next deeds none) :
    ∃ outcome, Conclusion timely before last deeds outcome := by
  rcases h.run_cases with ⟨_, _, _, _, _, hstage⟩ |
      ⟨echo, later, hrequest, htimeout, hsound, rfl, hnext, hrest⟩
  · cases hstage
  · rw [Plan.value_resume_echoOff] at hrest
    cases hrest with
    | finish t =>
        have ht : t = echo.ended := hnext _ rfl
        rw [ht]
        exact ⟨_, .answered echo hlast hrequest htimeout hsound (hbegan _ rfl)⟩

/-- What a probe leads to: it is the last one, or it has failed and there is a
pause before the next. -/
theorem Story.probe_cases (hfew : before ≤ 10)
    (h : Story timely (Plan.probe (.of .standard) before).next deeds none) :
    ∃ (c : Served) (later : List (Nat × Deed)), c.IsProbe timely ∧
      deeds = c.deeds ++ later ∧
        ((∃ outcome, Conclusion timely before c later outcome) ∨ before < 10 ∧
          (∃ failure, c.result = .error failure) ∧
            ∃ rest, later = (c.ended, .pauses 500) :: rest ∧
            (∀ d ∈ rest.head?, c.ended + 500 ≤ d.1 ∧
              timely (c.ended + 500) d.1) ∧
            Story timely (Plan.probe (.of .standard)
              (before + 1)).next rest none) := by
  rcases h.run_cases with ⟨_, _, _, _, _, hstage⟩ |
      ⟨c, later, hrequest, htimeout, hsound, rfl, hnext, hrest⟩
  · cases hstage
  · refine ⟨c, later, ⟨hrequest, htimeout, hsound⟩, rfl, ?_⟩
    cases hresult : c.result with
    | ok response =>
        rw [hresult, Plan.resume, Guard.restore_during] at hrest
        exact Or.inl (Story.echoOff hresult hnext hrest)
    | error failure =>
        rw [hresult, Plan.resume, Guard.restore_during] at hrest
        by_cases hagain : before < Plan.maxRetries
        · rw [if_pos hagain] at hrest
          cases hrest with
          | paused t hlate hrest =>
              have ht : t = c.ended := hnext _ rfl
              subst ht
              exact Or.inr ⟨hagain, ⟨failure, rfl⟩, _, rfl, hlate, hrest⟩
        · rw [if_neg hagain] at hrest
          cases hrest with
          | finish t =>
              have ht : t = c.ended := hnext _ rfl
              rw [ht]
              have hall : before = 10 :=
                Nat.le_antisymm hfew (Nat.le_of_not_lt hagain)
              exact Or.inl ⟨_, .unanswered hresult hall⟩

/-- The story of a bring-up that has come to its end. -/
theorem Story.probe (hfew : before ≤ 10)
    (h : Story timely (Plan.probe (.of .standard) before).next deeds none) :
    ∃ (failed : List Served) (last : Served) (ending : List (Nat × Deed))
    (outcome : Outcome),
      deeds = failed.flatMap Served.attempt ++ (last.deeds ++ ending) ∧
      BroughtUp timely before failed last ending outcome := by
  obtain ⟨left, hleft⟩ := Nat.exists_eq_add_of_le hfew
  induction left generalizing before deeds with
  | zero =>
      obtain ⟨c, later, hc, rfl, ⟨outcome, hconclusion⟩ | ⟨hagain, _⟩⟩ :=
        h.probe_cases hfew
      · exact ⟨[], c, later, outcome, rfl, .once hfew hc hconclusion⟩
      · omega
  | succ left ih =>
      obtain ⟨c, later, hc, rfl, ⟨outcome, hconclusion⟩ |
        ⟨hagain, hfailure, rest, rfl, hlate, hrest⟩⟩ := h.probe_cases hfew
      · exact ⟨[], c, later, outcome, rfl, .once hfew hc hconclusion⟩
      · obtain ⟨failed, last, ending, outcome, rfl, hup⟩ :=
          ih hagain hrest (by omega)
        refine ⟨c :: failed, last, ending, outcome, ?_,
          hup.again hc hfailure ?_⟩
        · rw [List.flatMap_cons, Served.attempt]
          simp only [List.append_assoc, List.cons_append, List.nil_append]
        · cases failed with
          | nil =>
              rintro next ⟨⟩
              exact hlate _ rfl
          | cons c' failed =>
              rintro next ⟨⟩
              exact hlate _ rfl

end Story

namespace Modem

end Modem

end CellModem
