import BinaryLayout.Proofs.Work.Places
import Mathlib.Algebra.GroupWithZero.Nat

/-!
# How a closed pool drains

A worker that has something to do can go on: the answer it has, if it has one, finds an empty slot
(`exists_reply`); and with nothing to do and nothing waiting it leaves a closed pool. What it does
takes one off the steps that are left (`exists_step_of_busy`, `exists_step_of_closed`), so a run
comes to an end (`exists_run_of_exists_step`): the workers can get through all that waits, and leave
(`exists_run_exited`).
-/

namespace BinaryLayout

namespace Pool

variable {p q : Pool} {e : Event}

/-- The steps a worker takes before it is gone, with no further request. -/
def Worker.stepsLeft : Worker → Nat
  | .exited => 0
  | .idle => 1
  | .merged .. => 2
  | .processed .. => 3
  | .received .. => 4

/-- The steps the workers take after closing; a request that waits costs four. -/
def stepsLeft (p : Pool) : Nat := 4 * p.queue.length + (p.workers.map Worker.stepsLeft).sum

theorem stepsLeft_of_set_worker {w : Nat} {worker next : Worker} (hw : p.workers[w]? = some worker)
    (hqw : q.workers = p.workers.set w next)
    (hn : 4 * q.queue.length + next.stepsLeft + 1 = 4 * p.queue.length + worker.stepsLeft) :
    q.stepsLeft + 1 = p.stepsLeft := by
  obtain ⟨hlt, rfl⟩ := List.getElem?_eq_some_iff.1 hw
  have hs := ((List.set_perm_cons_eraseIdx hlt next).map Worker.stepsLeft).sum_nat
  have hl := ((List.getElem_cons_eraseIdx_perm hlt).map Worker.stepsLeft).sum_nat
  rw [List.map_cons, List.sum_cons] at hs hl
  rw [stepsLeft, stepsLeft, hqw]
  omega

/-- The answer of a worker never finds one in its place. -/
theorem exists_reply (h : Placed p) {w ticket : Nat} {response : Response}
    (hw : p.workers[w]? = some (.merged ticket response)) :
    ∃ reply next, p.replies[ticket]? = some reply ∧ reply.answer response = some next := by
  have hm : ticket ∈ p.inFlight := List.mem_append_right _ (mem_inFlight_of_held hw rfl)
  obtain ⟨hlt, hn⟩ := (h.mem_iff ticket).1 hm
  have hr := List.getElem?_eq_getElem hlt
  rw [response?_of_getElem? hr] at hn
  obtain ⟨next, ha⟩ := Reply.exists_answer hn response
  exact ⟨_, next, hr, ha⟩

/-- A worker that has something to do, or for which something waits, goes on. -/
theorem exists_step_of_busy (h : Placed p) {w : Nat} {worker : Worker}
    (hw : p.workers[w]? = some worker) (hn : worker ≠ .exited)
    (hb : worker ≠ .idle ∨ p.queue ≠ []) :
    ∃ e q, Step p e q ∧ q.isOpen = p.isOpen ∧ q.stepsLeft + 1 = p.stepsLeft := by
  cases worker with
  | idle =>
    obtain ⟨item, queue, hq⟩ := List.exists_cons_of_ne_nil (hb.resolve_left (not_not_intro rfl))
    refine ⟨_, _, .receive hw hq, rfl, stepsLeft_of_set_worker hw rfl ?_⟩
    rw [hq]
    rfl
  | received ticket request => exact ⟨_, _, .process hw, rfl, stepsLeft_of_set_worker hw rfl rfl⟩
  | processed ticket response counters =>
    exact ⟨_, _, .merge hw, rfl, stepsLeft_of_set_worker hw rfl rfl⟩
  | merged ticket response =>
    obtain ⟨reply, next, hr, ha⟩ := exists_reply h hw
    exact ⟨_, _, .reply hw hr ha, rfl, stepsLeft_of_set_worker hw rfl rfl⟩
  | exited => exact absurd rfl hn

theorem exists_step_of_closed (h : Placed p) (hc : p.isOpen = false) {w : Nat} {worker : Worker}
    (hw : p.workers[w]? = some worker) (hn : worker ≠ .exited) :
    ∃ e q, Step p e q ∧ q.isOpen = false ∧ q.stepsLeft + 1 = p.stepsLeft := by
  by_cases hb : worker ≠ .idle ∨ p.queue ≠ []
  · obtain ⟨e, q, hs, ho, hl⟩ := exists_step_of_busy h hw hn hb
    exact ⟨e, q, hs, ho.trans hc, hl⟩
  · push Not at hb
    obtain ⟨rfl, hq⟩ := hb
    exact ⟨_, _, .exit hw hc hq, hc, stepsLeft_of_set_worker hw rfl rfl⟩

/-- While something holds of a pool and a goal is not reached, steps can be taken; as each takes one
off those that are left, a run reaches the goal. -/
theorem exists_run_of_exists_step {I G : Pool → Prop}
    (hs : ∀ p, I p → ¬G p → ∃ e q, Step p e q ∧ I q ∧ q.stepsLeft + 1 = p.stepsLeft) (h : I p) :
    ∃ events q, p.run? events = some q ∧ I q ∧ G q := by
  induction hn : p.stepsLeft generalizing p with
  | zero =>
    by_cases hg : G p
    · exact ⟨[], p, rfl, h, hg⟩
    · obtain ⟨e, q, -, -, hl⟩ := hs p h hg
      omega
  | succ n ih =>
    by_cases hg : G p
    · exact ⟨[], p, rfl, h, hg⟩
    · obtain ⟨e, q, hstep, hi, hl⟩ := hs p h hg
      obtain ⟨events, r, hr, hx⟩ := ih hi (by omega)
      exact ⟨e :: events, r, by rw [run?_cons, step?_eq_some_iff.2 hstep]; exact hr, hx⟩

/-- The workers of a closed pool can get through all that waits, and leave. -/
theorem exists_run_exited (h : Placed p) (hc : p.isOpen = false) :
    ∃ events q, p.run? events = some q ∧ ∀ worker ∈ q.workers, worker = .exited := by
  have hs : ∀ p : Pool, (Placed p ∧ p.isOpen = false) → ¬(∀ worker ∈ p.workers, worker = .exited) →
      ∃ e q, Step p e q ∧ (Placed q ∧ q.isOpen = false) ∧ q.stepsLeft + 1 = p.stepsLeft := by
    intro p hp hx
    push Not at hx
    obtain ⟨worker, hm, hn⟩ := hx
    obtain ⟨w, hw⟩ := List.mem_iff_getElem?.1 hm
    obtain ⟨e, q, hstep, ho, hl⟩ := exists_step_of_closed hp.1 hp.2 hw hn
    exact ⟨e, q, hstep, ⟨hp.1.step hstep, ho⟩, hl⟩
  obtain ⟨events, q, hr, -, hx⟩ := exists_run_of_exists_step hs ⟨h, hc⟩
  exact ⟨events, q, hr, hx⟩

end Pool

end BinaryLayout
