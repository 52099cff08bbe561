import NoncesHeatmap.Network.Answers
import NoncesHeatmap.Network.Phases

/-! # Requests in flight

Between two deliveries the entries of `m_req` balance the outstanding exchanges, whatever ids the
daemon names. -/

namespace NoncesHeatmap.Network
open Runs
set_option autoImplicit false

variable {d : Daemon} {nonces : List ℕ} {w : Network}

def rangeExchanges (w : Network) : List Exchange :=
  w.exchanges.filter fun x => x.type = .blockHeadersRange

theorem Syncing.rangeExchanges (h : Syncing d nonces w) : rangeExchanges w = w.exchanges := by
  apply List.filter_eq_self.mpr
  intro x hx
  simpa using (h.exchange x hx).2

/-- After its first delivery a run is `Syncing` or has ended. -/
theorem run_syncing {δs : List Delivery} (run : (machine d).Run (connect nonces) δs) (hne : δs ≠ [])
    (halive : ((machine d).after (connect nonces) δs).endings = []) :
    Syncing d nonces ((machine d).after (connect nonces) δs) := by
  have h : δs = [] ∨ Phase d nonces (fun _ => True) (fun _ => True)
      ((machine d).after (connect nonces) δs) :=
    phases (fun _ hx _ => phase_start hx) (fun _ _ h _ hx _ => phase_step h hx) run.restrict_true
  rcases h with h | ⟨h, -⟩ | ⟨h, -⟩
  · exact absurd h hne
  · exact h
  · exact absurd halive h

/-- **Never stalled, never above the concurrency.** -/
theorem requests_in_flight (d : Daemon) (nonces : List ℕ) (δs : List Delivery)
    (run : (machine d).Run (connect nonces) δs) (hne : δs ≠ [])
    (halive : ((machine d).after (connect nonces) δs).endings = []) :
    ((machine d).after (connect nonces) δs).req.size =
        (rangeExchanges ((machine d).after (connect nonces) δs)).length ∧
      1 ≤ ((machine d).after (connect nonces) δs).req.size ∧
      ((machine d).after (connect nonces) δs).req.size ≤ d.concurrency := by
  have h := run_syncing run hne halive
  exact ⟨by rw [h.rangeExchanges, h.size_eq], h.size_pos, h.size_le⟩

/-- The reply to the request 2 names the id of the request 3. -/
theorem requests_in_flight_spoofed :
    let w := (machine (configured 2 1)).after (connect [])
      [answer id 5 headerExchange, reply (rangeExchange 2 0 1) 3 [headerValue 9 9]]
    w.req.size = (rangeExchanges w).length ∧ 1 ≤ w.req.size ∧ w.req.size ≤ 2 :=
  requests_in_flight (configured 2 1) [] _ (by decide) (by decide) (by decide)

end NoncesHeatmap.Network
