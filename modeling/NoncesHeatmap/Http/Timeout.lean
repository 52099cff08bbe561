import NoncesHeatmap.Base.Daemon
import NoncesHeatmap.Http.Resolver

/-! # The timeout of an exchange

The timer is the only event that ends an exchange whose name is not resolved. Its period is a product of
32 bits, and a period of 0 means that there is no timer. -/

namespace NoncesHeatmap.Client
open Runs
set_option autoImplicit false

/-- Some event can come that closes the exchange. -/
def Closable (c : Client) : Prop := ∃ e, enabled c e = true ∧ (next c e).listed = false

/-- An exchange whose resolution is over is closed, or can be. -/
def Watched (c : Client) : Prop := c.listed = true → c.pending = false → Closable c

/-- The client of `Network::rpcSend`. -/
def ofDaemon (d : Daemon) (keys : Finset ℕ) (counter : ℕ) (resolves : Bool) : Client :=
  create keys counter d.timeout resolves

/-- Every client of a daemon has its timer running, and stays watched whatever happens to it. -/
def EndsExchanges (d : Daemon) : Prop :=
  ∀ keys counter resolves, (ofDaemon d keys counter resolves).timer = true ∧
    ∀ events, machine.Run (ofDaemon d keys counter resolves) events →
      Watched (machine.after (ofDaemon d keys counter resolves) events)

/-- A listed client has its timer. -/
structure Timed (c : Client) : Prop where
  alive : Alive c
  timer : c.listed = true → c.timer = true

theorem Timed.watched {c : Client} (h : Timed c) : Watched c :=
  fun hlisted _ => ⟨.timer, h.timer hlisted, close_listed _⟩

theorem timed_next {c : Client} {e : Event} (h : Timed c) (he : enabled c e = true) : Timed (next c e) := by
  refine ⟨alive_next h.alive he, fun hlisted => ?_⟩
  obtain ⟨status, res, connects, rfl, -⟩ | ⟨rfl, hclosing, hdeleted⟩ | ⟨-, timer, stream, -, heq⟩ := next_cases he
  · obtain ⟨-, hsame, -, htimer⟩ := completed_keeps connects status res c
    exact htimer.trans (h.timer (hsame.symm.trans hlisted))
  · replace hlisted : (destroy c).listed = true := hlisted
    rw [destroy_eq h.alive hdeleted] at hlisted
    have hgone : c.listed = false := by simpa using h.alive.closing.symm.trans hclosing
    rw [hgone] at hlisted
    cases hlisted
  · obtain heq | heq := heq
    · rw [heq] at hlisted ⊢
      exact h.timer hlisted
    · rw [heq, close_listed] at hlisted
      cases hlisted

/-- Nothing can come to a client whose name is not resolved and that has no timer. -/
theorem unresolved_stuck {c : Client} (hpending : c.pending = false) (hidle : c.stream = .idle) (htimer : c.timer = false)
    (hclosing : c.closing = false) (e : Event) : enabled c e = false := by
  cases e with
  | resolved status res connects => exact hpending
  | connected status => simp [enabled, hidle]
  | read refused => simp [enabled, hidle]
  | readError nread => simp [enabled, hidle]
  | timer => exact htimer
  | closed => simp [enabled, hclosing]

theorem timeout_eq_zero_iff (d : Daemon) : d.timeout = 0 ↔ 2 ^ 29 ∣ d.timeoutSeconds := by
  have := d.timeoutSeconds_lt
  rw [Daemon.timeout, u32]
  omega

theorem endsExchanges_iff (d : Daemon) : EndsExchanges d ↔ ¬ 2 ^ 29 ∣ d.timeoutSeconds := by
  rw [← timeout_eq_zero_iff]
  constructor
  · intro h hzero
    have htimer := (h ∅ 0 false).1
    rw [ofDaemon, hzero] at htimer
    cases htimer
  · intro hpos keys counter resolves
    have htimer : (ofDaemon d keys counter resolves).timer = true := decide_eq_true hpos
    refine ⟨htimer, fun events run => Timed.watched ?_⟩
    exact Machine.Run.invariant (fun _ _ => timed_next) ⟨alive_create counter d.timeout resolves, fun _ => htimer⟩ run

/-- The settings of the daemon in milliseconds, and what follows for its exchanges. -/
structure TimeoutsArmed (d : Daemon) : Prop where
  timeout : d.timeout = 1000 * d.timeoutSeconds
  printTime : d.printTime = 1000 * d.printSeconds
  ends : EndsExchanges d

/-- **The timeouts.** -/
theorem timeouts_armed_iff (d : Daemon) :
    (TimeoutsArmed d ↔ d.timeoutSeconds ≤ 4294967 ∧ d.printSeconds ≤ 4294967) ∧
      (EndsExchanges d ↔ ¬ 2 ^ 29 ∣ d.timeoutSeconds) := by
  have htimeout : d.timeout = 1000 * d.timeoutSeconds ↔ d.timeoutSeconds ≤ 4294967 := by
    rw [Daemon.timeout, u32]
    omega
  have hprint : d.printTime = 1000 * d.printSeconds ↔ d.printSeconds ≤ 4294967 := by
    rw [Daemon.printTime, u32]
    omega
  refine ⟨⟨fun h => ⟨htimeout.mp h.timeout, hprint.mp h.printTime⟩, ?_⟩, endsExchanges_iff d⟩
  rintro ⟨hsmall, hsmall'⟩
  refine ⟨htimeout.mpr hsmall, hprint.mpr hsmall', (endsExchanges_iff d).mpr ?_⟩
  have := d.timeoutSeconds_pos
  omega

/-- A timeout of `2^29` seconds, and a name that is not resolved. -/
theorem timeout_wraps :
    ∃ d : Daemon, d = Daemon.ofJson false (.object [("host", .string "x"), ("port", .int 1), ("timeout", .int 536870912)]) ∧
      d.timeout = 0 ∧ ¬ TimeoutsArmed d ∧
      (machine.after (ofDaemon d ∅ 0 true) [.resolved UV_EAI_NONAME [] true]).listed = true ∧
      ∀ e, enabled (machine.after (ofDaemon d ∅ 0 true) [.resolved UV_EAI_NONAME [] true]) e = false := by
  obtain ⟨d, hd⟩ : ∃ d : Daemon, d =
    Daemon.ofJson false (.object [("host", .string "x"), ("port", .int 1), ("timeout", .int 536870912)]) := ⟨_, rfl⟩
  have hseconds : d.timeoutSeconds = 536870912 := by
    rw [hd]
    decide +kernel
  have hzero : d.timeout = 0 := by
    rw [timeout_eq_zero_iff, hseconds]
    decide
  have hofDaemon : ofDaemon d ∅ 0 true = create ∅ 0 0 true := by rw [ofDaemon, hzero]
  refine ⟨d, hd, hzero, fun h => ?_, ?_⟩
  · have htimeout := h.timeout
    rw [hzero, hseconds] at htimeout
    cases htimeout
  · rw [hofDaemon]
    exact ⟨by decide, unresolved_stuck (by decide) (by decide) (by decide) (by decide)⟩

end NoncesHeatmap.Client
