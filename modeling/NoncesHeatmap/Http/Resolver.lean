import NoncesHeatmap.Http.Client

/-! # Completions of the resolver

As long as no close and no deletion comes before the completion, the parts of a client are alive when it
acts on them. Nothing keeps the timer from closing a client whose resolver is still at work. -/

namespace NoncesHeatmap.Client
open Runs
set_option autoImplicit false

/-- What every state of a client satisfies. -/
structure Alive (c : Client) : Prop where
  closing : c.closing = !c.listed
  deleted : c.deleted = true → c.closing = true
  key : c.key ∈ c.keys ↔ c.deleted = false
  stream : c.stream ≠ .idle → c.pending = false
  pending : c.deleted = true → c.pending = true → c.faults ≠ []

theorem alive_create {keys : Finset ℕ} (counter timeout : ℕ) (resolves : Bool) :
    Alive (create keys counter timeout resolves) where
  closing := rfl
  deleted h := absurd h Bool.false_ne_true
  key := iff_of_true (Finset.mem_insert_self _ _) rfl
  stream h := absurd rfl h
  pending h := absurd h Bool.false_ne_true

/-! ## What the steps do -/

/-- A completion that brings an address comes before the close, and the close callback comes after the
completion. -/
def Orderly (c : Client) : Event → Prop
  | .resolved status res _ => c.listed = true ∨ records status res = []
  | .closed => c.pending = false
  | _ => True

/-- A timer does not expire while the resolver is at work. -/
def Prompt (c : Client) : Event → Prop
  | .timer => c.pending = false
  | _ => True

/-- A completion finds no key, or a handle that is closing, or nothing to fault. -/
theorem completed_cases (connects : Bool) (status : ℤ) (res : List AddressFamily) (c : Client) :
    (c.key ∉ c.keys ∧ completed connects status res c = fault .releasedKey { c with pending := false }) ∨
      (c.key ∈ c.keys ∧ records status res ≠ [] ∧ c.closing = true ∧
        completed connects status res c = fault .connectClosing { c with pending := false }) ∨
      (c.key ∈ c.keys ∧ (records status res = [] ∨ c.closing = false) ∧
        ∃ stream, completed connects status res c = { c with pending := false, stream := stream }) := by
  by_cases hkey : c.key ∈ c.keys
  swap
  · exact Or.inl ⟨hkey, if_neg hkey⟩
  refine Or.inr ?_
  have hcompleted : completed connects status res c = dnsResolved connects status res { c with pending := false } := if_pos hkey
  rw [hcompleted]
  by_cases hempty : records status res = []
  · refine Or.inr ⟨hkey, Or.inl hempty, c.stream, ?_⟩
    rw [dnsResolved, hempty, onResolved]
    refine if_pos ⟨?_, rfl⟩
    split
    · assumption
    · exact (by decide : UV_EAI_NONAME < 0)
  · have hfull : (records status res).isEmpty = false := by simpa using hempty
    rw [dnsResolved, hfull, onResolved, if_neg fun h => Bool.false_ne_true h.2]
    cases hclosing : c.closing with
    | true => exact Or.inl ⟨hkey, hempty, rfl, rfl⟩
    | false =>
      refine Or.inr ⟨hkey, Or.inr rfl, ?_⟩
      cases connects with
      | true => exact ⟨.connecting, rfl⟩
      | false => exact ⟨c.stream, rfl⟩

/-- Any other event than a completion and the close callback is in order; it may close the client. -/
theorem next_cases {c : Client} {e : Event} (he : enabled c e = true) :
    (∃ status res connects, e = .resolved status res connects ∧ c.pending = true) ∨
      (e = .closed ∧ c.closing = true ∧ c.deleted = false) ∨
      Orderly c e ∧ ∃ timer stream, (stream ≠ .idle → c.stream ≠ .idle) ∧
        (next c e = { c with stream := stream } ∨ next c e = close { c with timer := timer, stream := stream }) := by
  cases e with
  | resolved status res connects => exact Or.inl ⟨status, res, connects, rfl, he⟩
  | connected status =>
    refine Or.inr (Or.inr ⟨trivial, ?_⟩)
    by_cases hstatus : status < 0
    · exact ⟨c.timer, .idle, fun h => absurd rfl h, Or.inr (if_pos hstatus)⟩
    · refine ⟨c.timer, .reading, fun _ hidle => ?_, Or.inl (if_neg hstatus)⟩
      simp [enabled, hidle] at he
  | read refused =>
    refine Or.inr (Or.inr ⟨trivial, c.timer, c.stream, id, ?_⟩)
    cases refused with
    | true => exact Or.inr rfl
    | false => exact Or.inl rfl
  | readError nread => exact Or.inr (Or.inr ⟨trivial, c.timer, c.stream, id, Or.inr rfl⟩)
  | timer => exact Or.inr (Or.inr ⟨trivial, false, c.stream, id, Or.inr rfl⟩)
  | closed =>
    simp only [enabled, Bool.and_eq_true, Bool.not_eq_true'] at he
    exact Or.inr (Or.inl ⟨rfl, he.1.1, he.1.2⟩)

theorem close_eq {c : Client} (h : Alive c) : close c = { c with listed := false, closing := true } := by
  cases hlisted : c.listed with
  | true => rw [close, if_pos hlisted]
  | false =>
    have hclosing : c.closing = true := by rw [h.closing, hlisted]; rfl
    rw [close, if_neg (by rw [hlisted]; exact Bool.false_ne_true), ← hlisted, ← hclosing]

theorem close_listed (c : Client) : (close c).listed = false := by
  rw [close]
  split
  · rfl
  · next h => exact Bool.not_eq_true _ ▸ h

/-- The closing of a handle, whose key is still there. -/
theorem destroy_eq {c : Client} (h : Alive c) (hdeleted : c.deleted = false) :
    destroy c =
      { c with
        deleted := true
        timer := false
        stream := .idle
        keys := c.keys.erase c.key
        faults := if c.pending then c.faults ++ [.deletedPending] else c.faults } := by
  have hkey : c.key ∈ c.keys := h.key.mpr hdeleted
  rw [destroy]
  dsimp only
  rw [if_pos hkey]
  cases c.pending <;> rfl

theorem alive_close {c : Client} (h : Alive c) : Alive (close c) := by
  rw [close_eq h]
  exact ⟨rfl, fun _ => rfl, h.key, h.stream, h.pending⟩

theorem alive_fault {c : Client} (h : Alive c) (f : Fault) : Alive (fault f c) where
  closing := h.closing
  deleted := h.deleted
  key := h.key
  stream := h.stream
  pending _ _ := List.append_ne_nil_of_right_ne_nil _ (List.cons_ne_nil f [])

theorem alive_completed {c : Client} (h : Alive c) (connects : Bool) (status : ℤ) (res : List AddressFamily) :
    Alive (completed connects status res c) := by
  have hdone : ∀ stream, Alive { c with pending := false, stream := stream } := fun _ =>
    ⟨h.closing, h.deleted, h.key, fun _ => rfl, fun _ hpending => absurd hpending Bool.false_ne_true⟩
  obtain ⟨-, heq⟩ | ⟨-, -, -, heq⟩ | ⟨-, -, stream, heq⟩ := completed_cases connects status res c
  · rw [heq]
    exact alive_fault (hdone c.stream) _
  · rw [heq]
    exact alive_fault (hdone c.stream) _
  · rw [heq]
    exact hdone stream

theorem alive_destroy {c : Client} (h : Alive c) (hdeleted : c.deleted = false) (hclosing : c.closing = true) :
    Alive (destroy c) := by
  rw [destroy_eq h hdeleted]
  refine ⟨h.closing, fun _ => hclosing, ?_, fun hidle => absurd rfl hidle, ?_⟩
  · exact iff_of_false (Finset.notMem_erase _ _) (Bool.noConfusion)
  · intro _ hpending
    rw [if_pos hpending]
    exact List.append_ne_nil_of_right_ne_nil _ (List.cons_ne_nil _ [])

theorem alive_next {c : Client} {e : Event} (h : Alive c) (he : enabled c e = true) : Alive (next c e) := by
  obtain ⟨status, res, connects, rfl, -⟩ | ⟨rfl, hclosing, hdeleted⟩ | ⟨-, timer, stream, hidle, heq⟩ := next_cases he
  · exact alive_completed h connects status res
  · exact alive_destroy h hdeleted hclosing
  · have hstream : stream ≠ .idle → c.pending = false := fun hs => h.stream (hidle hs)
    obtain heq | heq := heq
    · rw [heq]
      exact ⟨h.closing, h.deleted, h.key, hstream, h.pending⟩
    · rw [heq]
      exact alive_close ⟨h.closing, h.deleted, h.key, hstream, h.pending⟩

/-! ## Faults -/

/-- No part that is dead has been used. -/
def Safe (c : Client) : Prop := c.faults = []

theorem close_keeps (c : Client) : (close c).faults = c.faults ∧ (close c).pending = c.pending := by
  rw [close]
  split
  · exact ⟨rfl, rfl⟩
  · exact ⟨rfl, rfl⟩

/-- A step uses a dead part exactly if it is out of order. -/
theorem safe_next_iff {c : Client} {e : Event} (h : Alive c) (hsafe : Safe c) (he : enabled c e = true) :
    Safe (next c e) ↔ Orderly c e := by
  have hfault : ∀ (f : Fault) (c : Client), ¬ Safe (fault f c) := fun f c =>
    List.append_ne_nil_of_right_ne_nil _ (List.cons_ne_nil f [])
  obtain ⟨status, res, connects, rfl, hpending⟩ | ⟨rfl, -, hdeleted⟩ | ⟨horderly, timer, stream, -, heq⟩ := next_cases he
  · have hlive : c.deleted = false := by
      rw [← Bool.not_eq_true]
      exact fun hdeleted => h.pending hdeleted hpending hsafe
    show Safe (completed connects status res c) ↔ c.listed = true ∨ records status res = []
    have hlisted : c.listed = true ↔ c.closing = false := by
      rw [h.closing]
      cases c.listed <;> simp
    rw [hlisted]
    obtain ⟨hkey, -⟩ | ⟨-, hfull, hclosing, heq⟩ | ⟨-, hcause, stream, heq⟩ := completed_cases connects status res c
    · exact absurd (h.key.mpr hlive) hkey
    · rw [heq, hclosing]
      exact iff_of_false (hfault _ _) (by simpa using hfull)
    · rw [heq]
      exact iff_of_true hsafe hcause.symm
  · show Safe (destroy c) ↔ c.pending = false
    rw [destroy_eq h hdeleted, Safe, hsafe]
    cases c.pending <;> simp
  · refine iff_of_true ?_ horderly
    obtain heq | heq := heq
    · rw [heq]
      exact hsafe
    · rw [heq]
      exact (close_keeps _).1.trans hsafe

/-- A completion ends the work of the resolver and neither closes the client nor stops its timer. -/
theorem completed_keeps (connects : Bool) (status : ℤ) (res : List AddressFamily) (c : Client) :
    (completed connects status res c).pending = false ∧ (completed connects status res c).listed = c.listed ∧
      (completed connects status res c).closing = c.closing ∧ (completed connects status res c).timer = c.timer := by
  obtain ⟨-, heq⟩ | ⟨-, -, -, heq⟩ | ⟨-, -, stream, heq⟩ := completed_cases connects status res c
  · rw [heq]
    exact ⟨rfl, rfl, rfl, rfl⟩
  · rw [heq]
    exact ⟨rfl, rfl, rfl, rfl⟩
  · rw [heq]
    exact ⟨rfl, rfl, rfl, rfl⟩

/-- While the resolver is at work, only its completion, the timer and the close callback can come. -/
theorem enabled_pending {c : Client} {e : Event} (h : Alive c) (hpending : c.pending = true) (he : enabled c e = true) :
    (∃ status res connects, e = .resolved status res connects) ∨ e = .timer ∨ e = .closed ∧ c.listed = false := by
  have hidle : c.stream = .idle := by
    by_contra hne
    have := h.stream hne
    rw [hpending] at this
    cases this
  cases e with
  | resolved status res connects => exact Or.inl ⟨status, res, connects, rfl⟩
  | connected status => simp [enabled, hidle] at he
  | read refused => simp [enabled, hidle] at he
  | readError nread => simp [enabled, hidle] at he
  | timer => exact Or.inr (Or.inl rfl)
  | closed =>
    simp only [enabled, Bool.and_eq_true] at he
    exact Or.inr (Or.inr ⟨rfl, by simpa using h.closing.symm.trans he.1.1⟩)

theorem next_pending {c : Client} {e : Event} (h : Alive c) (he : enabled c e = true) (hdone : c.pending = false) :
    (next c e).pending = false := by
  obtain ⟨status, res, connects, rfl, -⟩ | ⟨rfl, -, hdeleted⟩ | ⟨-, timer, stream, -, heq⟩ := next_cases he
  · exact (completed_keeps connects status res c).1
  · show (destroy c).pending = false
    rw [destroy_eq h hdeleted]
    exact hdone
  · obtain heq | heq := heq
    · rw [heq]
      exact hdone
    · rw [heq]
      exact (close_keeps _).2.trans hdone

/-- A prompt step is in order, and leaves the client listed as long as the resolver is at work. -/
theorem prompt_step {c : Client} {e : Event} (h : Alive c ∧ (c.pending = true → c.listed = true))
    (he : enabled c e = true) (hprompt : Prompt c e) :
    (Alive (next c e) ∧ ((next c e).pending = true → (next c e).listed = true)) ∧ Orderly c e := by
  obtain ⟨halive, hlisted⟩ := h
  cases hpending : c.pending with
  | true =>
    obtain ⟨status, res, connects, rfl⟩ | rfl | ⟨-, hgone⟩ := enabled_pending halive hpending he
    · refine ⟨⟨alive_next halive he, fun hp => ?_⟩, Or.inl (hlisted hpending)⟩
      rw [show (next c (.resolved status res connects)).pending = false from (completed_keeps connects status res c).1] at hp
      cases hp
    · rw [show c.pending = false from hprompt] at hpending
      cases hpending
    · rw [hlisted hpending] at hgone
      cases hgone
  | false =>
    refine ⟨⟨alive_next halive he, fun hp => ?_⟩, ?_⟩
    · rw [next_pending halive he hpending] at hp
      cases hp
    · cases e with
      | resolved status res connects =>
        rw [show c.pending = true from he] at hpending
        cases hpending
      | closed => exact hpending
      | _ => trivial

/-- **The completions of the resolver.** -/
theorem completions_safe_iff (keys : Finset ℕ) (counter timeout : ℕ) (resolves : Bool) (events : List Event)
    (run : machine.Run (create keys counter timeout resolves) events) :
    (machine.Throughout Safe (create keys counter timeout resolves) events ↔
        machine.EachStep Orderly (create keys counter timeout resolves) events) ∧
      (machine.EachStep Prompt (create keys counter timeout resolves) events →
        machine.Throughout Safe (create keys counter timeout resolves) events) := by
  have hstart : Alive (create keys counter timeout resolves) := alive_create counter timeout resolves
  have hiff : machine.Throughout Safe (create keys counter timeout resolves) events ↔
      machine.EachStep Orderly (create keys counter timeout resolves) events :=
    Machine.throughout_iff_eachStep (fun _ _ => alive_next) (fun _ _ => safe_next_iff) hstart rfl run
  refine ⟨hiff, fun hprompt => hiff.mpr ?_⟩
  rw [← Machine.eachStep_restrict Prompt]
  exact Machine.Run.eachStep (fun c e h (he : machine.enabled c e ∧ Prompt c e) => prompt_step h he.1 he.2) ⟨hstart, fun _ => rfl⟩
    ((Machine.run_restrict_iff Prompt _ _).mpr ⟨run, hprompt⟩)

/-- A name that is resolved, a connection, and the timeout of the exchange. -/
theorem completions_safe_iff_prompt :
    machine.Throughout Safe (create ∅ 0 30000 true) [.resolved 0 [.inet] true, .connected 0, .timer, .closed] :=
  (completions_safe_iff ∅ 0 30000 true [.resolved 0 [.inet] true, .connected 0, .timer, .closed] (by decide)).2
    ⟨trivial, trivial, rfl, trivial, trivial⟩

/-- The timeout before the completion, and the close callback before it too. -/
theorem late_completions :
    (machine.Run (create ∅ 0 30000 true) [.timer, .resolved 0 [.inet] true] ∧
      (machine.after (create ∅ 0 30000 true) [.timer, .resolved 0 [.inet] true]).faults = [.connectClosing] ∧
      ¬ machine.Throughout Safe (create ∅ 0 30000 true) [.timer, .resolved 0 [.inet] true]) ∧
      machine.Run (create ∅ 0 30000 true) [.timer, .closed, .resolved 0 [.inet] true] ∧
      (machine.after (create ∅ 0 30000 true) [.timer, .closed, .resolved 0 [.inet] true]).faults =
        [.deletedPending, .releasedKey] ∧
      ¬ machine.Throughout Safe (create ∅ 0 30000 true) [.timer, .closed, .resolved 0 [.inet] true] := by
  have hconnect : (machine.after (create ∅ 0 30000 true) [.timer, .resolved 0 [.inet] true]).faults =
      [.connectClosing] := by decide
  have hdelete : (machine.after (create ∅ 0 30000 true) [.timer, .closed, .resolved 0 [.inet] true]).faults =
      [.deletedPending, .releasedKey] := by decide
  refine ⟨⟨by decide, hconnect, fun h => ?_⟩, by decide, hdelete, fun h => ?_⟩
  · exact absurd (hconnect.symm.trans h.2.2) (by decide)
  · exact absurd (hdelete.symm.trans h.2.2.2) (by decide)

end NoncesHeatmap.Client
