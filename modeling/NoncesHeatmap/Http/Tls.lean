import NoncesHeatmap.Base.Cvt
import NoncesHeatmap.Http.Invariants
import NoncesHeatmap.Http.Request

/-! # `HttpsClient`

An `HttpsClient` stands between the socket and its context: reads go through OpenSSL, and the request is written when
the certificate of the peer is verified. OpenSSL is the parameter `OpenSsl`. `steps` records what the client did, in order;
`protocol` says in which order it may do these things. Against every peer, the client follows the protocol, and what it
makes of the reads are events of its context. -/

namespace NoncesHeatmap
open Runs Function
set_option autoImplicit false

/-- An `SSL` with its two memory BIOs. The handshake is over when `SSL_connect` returns 1 and not before, and moving data
in and out of the BIOs does not change that. `SSL_read` returns what is buffered, piece by piece. -/
structure OpenSsl where
  State : Type
  Certificate : Type
  /-- `SSL_new` up to `SSL_set_tlsext_host_name`. -/
  new : String → State
  doHandshake : State → State
  connect : State → ℤ × State
  getError : State → ℤ → ℤ
  isInitFinished : State → Bool
  getPeerCertificate : State → Option Certificate
  /-- `X509_digest` with `sha256`. -/
  digest : Certificate → Option Bytes
  /-- The bytes of a positive result of `SSL_read`, or the result. -/
  read : State → Except ℤ Bytes × State
  write : Bytes → State → State
  bioWrite : Bytes → State → State
  /-- `BIO_get_mem_data` of the BIO that is written to the socket, and its `BIO_reset`. -/
  memData : State → Bytes
  bioReset : State → State
  buffered : State → ℕ
  new_init : ∀ host, isInitFinished (doHandshake (new host)) = false
  connect_init : ∀ s, isInitFinished (connect s).2 = true → (connect s).1 = 1
  bioWrite_init : ∀ bytes s, isInitFinished (bioWrite bytes s) = isInitFinished s
  bioReset_init : ∀ s, isInitFinished (bioReset s) = isInitFinished s
  read_lt : ∀ s bytes, (read s).1 = .ok bytes → buffered (read s).2 < buffered s
  digest_length : ∀ cert md, digest cert = some md → md.length = 32

/-- The members of a `FetchRequest` that an `HttpsClient` reads when it is connected. -/
structure HttpsTarget where
  method : HttpMethod
  host : String
  path : String
  userAgent : String
  fingerprint : Option Bytes

inductive TlsStep (S : OpenSsl) where
  /-- `HttpContext::write` of what OpenSSL has for the peer. -/
  | sent (bytes : Bytes)
  | accepted (cert : S.Certificate)
  | refused
  /-- `SSL_write` -/
  | written (data : Bytes)
  /-- `HttpClient::read` of decrypted bytes. -/
  | handed (bytes : Bytes)

/-- The members of an `HttpsClient` that are not those of its context. -/
structure TlsSession (S : OpenSsl) where
  ssl : Option S.State
  ready : Bool
  fingerprint : Option Bytes
  steps : List (TlsStep S)

namespace HttpsClient
variable {P : HttpParser} {S : OpenSsl}

def SSL_ERROR_WANT_READ : ℤ := 2

def create (S : OpenSsl) : TlsSession S := ⟨none, false, none, []⟩

def act (step : TlsStep S) (k : TlsSession S) : TlsSession S := { k with steps := k.steps ++ [step] }

/-- `writable` is `uv_is_writable` of the stream. -/
def flush (writable : Bool) (k : TlsSession S) : TlsSession S :=
  match k.ssl with
  | none => k
  | some ssl => if writable then act (.sent (S.memData ssl)) { k with ssl := some (S.bioReset ssl) } else k

def handshake (host : String) (writable : Bool) (k : TlsSession S) : TlsSession S :=
  flush writable { k with ssl := some (S.doHandshake (S.new host)) }

def verifyFingerprint (fingerprint : Option Bytes) (cert : S.Certificate) (k : TlsSession S) : Bool × TlsSession S :=
  match S.digest cert with
  | none => (false, k)
  | some md =>
    let k := { k with fingerprint := Cvt.toHex (md.take 32) }
    if fingerprint = none ∨ fingerprint = k.fingerprint then (true, act (.accepted cert) k) else (false, k)

def verify (fingerprint : Option Bytes) (cert : Option S.Certificate) (k : TlsSession S) : Bool × TlsSession S :=
  match cert with
  | none => (false, k)
  | some cert => verifyFingerprint fingerprint cert k

def write (writable : Bool) (data : Bytes) (k : TlsSession S) : TlsSession S :=
  match k.ssl with
  | none => k
  | some ssl => flush writable (act (.written data) { k with ssl := some (S.write data ssl) })

/-- What `HttpClient::handshake` writes for the context `c`. -/
def request (t : HttpsTarget) (c : HttpContext P) : Bytes :=
  HttpClient.handshake t.userAgent ⟨t.method, c.data.headers, c.data.body, t.host, t.path⟩

/-- The loop of `read()` over `SSL_read`. -/
def readLoop (react : Listeners) (id : ℕ) (ssl : S.State) (k : TlsSession S) (s : HttpContext P × Http P) :
    TlsSession S × HttpContext P × Http P :=
  match _hread : S.read ssl with
  | (.ok bytes, ssl') => readLoop react id ssl' (act (.handed bytes) k) (Http.read react id s bytes)
  | (.error rc, ssl') => ({ k with ssl := some ssl' }, if rc = 0 then Http.close react UV_EOF id s.1 s.2 else s)
termination_by S.buffered ssl
decreasing_by
  have hlt := S.read_lt ssl bytes (by rw [_hread])
  rwa [_hread] at hlt

def read (t : HttpsTarget) (react : Listeners) (id : ℕ) (writable : Bool) (data : Bytes) (ssl : S.State) (k : TlsSession S)
    (c : HttpContext P) (h : Http P) : TlsSession S × HttpContext P × Http P :=
  let ssl := S.bioWrite data ssl
  if !S.isInitFinished ssl then
    let (rc, ssl) := S.connect ssl
    let k := { k with ssl := some ssl }
    if rc < 0 ∧ S.getError ssl rc = SSL_ERROR_WANT_READ then (flush writable k, c, h)
    else if rc = 1 then
      let (verified, k) := verify t.fingerprint (S.getPeerCertificate ssl) k
      if !verified then (act .refused k, Http.close react UV_EPROTO id c h)
      else (write writable (request t c) { k with ready := true }, c.handshake, h)
    else (k, c, h)
  else readLoop react id ssl k (c, h)

/-! ## The machine of all contexts, one of which is an `HttpsClient` -/

inductive Label where
  /-- An event that is not a read of the client. -/
  | http (l : Http.Label) (writable : Bool)
  | read (data : Bytes) (writable : Bool)

def next (t : HttpsTarget) (react : Listeners) (id : ℕ) (s : Http P × TlsSession S) : Label → Http P × TlsSession S
  | .http l writable =>
    let k :=
      match l with
      | .event j (.connected status) => if j = id ∧ 0 ≤ status then handshake t.host writable s.2 else s.2
      | _ => s.2
    (Http.next react s.1 l, k)
  | .read data writable =>
    match s.1.contexts id, s.2.ssl with
    | some c, some ssl =>
      let (k, c, h) := read t react id writable data ssl s.2 c s.1
      (Http.set id c h, k)
    | _, _ => s

/-- A connection is made once. -/
def machine (t : HttpsTarget) (react : Listeners) (P : HttpParser) (S : OpenSsl) (id : ℕ) :
    Machine (Http P × TlsSession S) Label where
  enabled s
    | .http l _ => (Http.machine P react).enabled s.1 l ∧ (∀ r, l ≠ .event id (.tlsRead r)) ∧
        ∀ status, l = .event id (.connected status) → s.2.ssl = none
    | .read _ _ => s.2.ssl ≠ none ∧ ∃ c, s.1.contexts id = some c ∧ c.closing = false ∧ c.tls = true
  next := next t react id

/-! ## The order of the steps -/

inductive Phase where
  | waiting
  /-- The peer is accepted and the request not written; `first` for the first time. -/
  | granted (first : Bool)
  | opened
  | refused

/-- The peer has a certificate, and its fingerprint is the one that was given, if one was. -/
def Accepts (fingerprint : Option Bytes) (cert : S.Certificate) : Prop :=
  ∃ md, S.digest cert = some md ∧ ∀ hex, fingerprint = some hex → Cvt.toHex md = some hex

def protocol (S : OpenSsl) (fingerprint : Option Bytes) (first : Bytes) : Machine Phase (TlsStep S) where
  enabled
    | .waiting, .sent _ => True
    | .waiting, .accepted cert => Accepts fingerprint cert
    | .waiting, .refused => True
    | .granted true, .written data => data = first
    | .granted false, .written _ => True
    | .opened, .sent _ => True
    | .opened, .accepted cert => Accepts fingerprint cert
    | .opened, .refused => True
    | .opened, .handed _ => True
    | _, _ => False
  next
    | .waiting, .accepted _ => .granted true
    | .opened, .accepted _ => .granted false
    | .granted _, .written _ => .opened
    | _, .refused => .refused
    | phase, _ => phase

/-! ## What a read does -/

variable {t : HttpsTarget} {react : Listeners} {id : ℕ} {k : TlsSession S} {c : HttpContext P} {h : Http P} {ssl : S.State}
  {e : Http.Event}

def finished (k : TlsSession S) : Bool := k.ssl.any S.isInitFinished

theorem flush_spec (writable : Bool) (k : TlsSession S) :
    finished (flush writable k) = finished k ∧ (flush writable k).ready = k.ready ∧
      ((flush writable k).steps = k.steps ∨ ∃ bytes, (flush writable k).steps = k.steps ++ [.sent bytes]) ∧
      ((flush writable k).ssl = none ↔ k.ssl = none) := by
  cases hssl : k.ssl with
  | none =>
    have hsame : flush writable k = k := by rw [flush, hssl]
    rw [hsame]
    exact ⟨rfl, rfl, Or.inl rfl, by rw [hssl]⟩
  | some ssl =>
    cases writable with
    | false =>
      have hsame : flush false k = k := by
        rw [flush, hssl]
        rfl
      rw [hsame]
      exact ⟨rfl, rfl, Or.inl rfl, by rw [hssl]⟩
    | true =>
      have hsent : flush true k = act (.sent (S.memData ssl)) { k with ssl := some (S.bioReset ssl) } := by
        rw [flush, hssl]
        rfl
      rw [hsent]
      refine ⟨?_, rfl, Or.inr ⟨_, rfl⟩, ⟨fun hnone => ?_, fun hnone => ?_⟩⟩
      · rw [finished, finished, hssl]
        exact S.bioReset_init ssl
      · cases hnone
      · cases hnone

theorem verify_spec (fingerprint : Option Bytes) (cert : Option S.Certificate) (k : TlsSession S) :
    (verify fingerprint cert k).2.ssl = k.ssl ∧ (verify fingerprint cert k).2.ready = k.ready ∧
      ((verify fingerprint cert k).1 = false ∧ (verify fingerprint cert k).2.steps = k.steps ∨
        (verify fingerprint cert k).1 = true ∧ ∃ peer, Accepts fingerprint peer ∧
          (verify fingerprint cert k).2.steps = k.steps ++ [.accepted peer]) := by
  cases cert with
  | none => exact ⟨rfl, rfl, Or.inl ⟨rfl, rfl⟩⟩
  | some cert =>
    cases hmd : S.digest cert with
    | none =>
      have hfalse : verify fingerprint (some cert) k = (false, k) := by rw [verify, verifyFingerprint, hmd]
      rw [hfalse]
      exact ⟨rfl, rfl, Or.inl ⟨rfl, rfl⟩⟩
    | some md =>
      have htake : md.take 32 = md := List.take_of_length_le (S.digest_length cert md hmd).le
      have hverify : verify fingerprint (some cert) k =
          if fingerprint = none ∨ fingerprint = Cvt.toHex md then
            (true, act (.accepted cert) { k with fingerprint := Cvt.toHex md })
          else (false, { k with fingerprint := Cvt.toHex md }) := by
        rw [verify, verifyFingerprint, hmd]
        simp only [htake]
      rw [hverify]
      by_cases hmatch : fingerprint = none ∨ fingerprint = Cvt.toHex md
      · rw [if_pos hmatch]
        have haccepts : Accepts fingerprint cert := by
          refine ⟨md, hmd, fun hex hhex => ?_⟩
          rcases hmatch with hnone | hsame
          · rw [hnone] at hhex
            cases hhex
          · exact hsame.symm.trans hhex
        exact ⟨rfl, rfl, Or.inr ⟨rfl, cert, haccepts, rfl⟩⟩
      · rw [if_neg hmatch]
        exact ⟨rfl, rfl, Or.inl ⟨rfl, rfl⟩⟩

/-- What `read` does with `data`: to its context, and as steps. -/
inductive Outcome (t : HttpsTarget) (c : HttpContext P) (k k' : TlsSession S) : TlsRead → Prop where
  | pending : finished k = false → finished k' = false → k'.ready = k.ready →
      (k'.steps = k.steps ∨ ∃ bytes, k'.steps = k.steps ++ [.sent bytes]) → Outcome t c k k' .pending
  | refused : finished k = false → k'.ready = k.ready → k'.steps = k.steps ++ [.refused] → Outcome t c k k' .refused
  | ready (cert : S.Certificate) : finished k = false → k'.ready = true → Accepts t.fingerprint cert →
      (k'.steps = k.steps ++ [.accepted cert, .written (request t c)] ∨
        ∃ bytes, k'.steps = k.steps ++ [.accepted cert, .written (request t c)] ++ [.sent bytes]) →
      Outcome t c k k' .ready
  | decrypted (pieces : List Bytes) (eof : Bool) : finished k = true → k'.ready = k.ready →
      k'.steps = k.steps ++ pieces.map .handed → Outcome t c k k' (.decrypted pieces eof)

theorem readLoop_spec (react : Listeners) (id : ℕ) (ssl : S.State) (k : TlsSession S) (s : HttpContext P × Http P) :
    ∃ pieces eof, (readLoop react id ssl k s).2 = Http.tlsRead react id (.decrypted pieces eof) s.1 s.2 ∧
      (readLoop react id ssl k s).1.ready = k.ready ∧ (readLoop react id ssl k s).1.ssl ≠ none ∧
      (readLoop react id ssl k s).1.steps = k.steps ++ pieces.map .handed := by
  fun_induction readLoop react id ssl k s with
  | case1 ssl k s bytes ssl' hread ih =>
    obtain ⟨pieces, eof, hcontext, hready, hssl, hsteps⟩ := ih
    refine ⟨bytes :: pieces, eof, hcontext, hready, hssl, ?_⟩
    rw [hsteps, act, List.map_cons, List.append_assoc]
    rfl
  | case2 ssl k s rc ssl' hread =>
    refine ⟨[], decide (rc = 0), ?_, rfl, Option.some_ne_none _, (List.append_nil _).symm⟩
    by_cases hrc : rc = 0
    · simp [Http.tlsRead, hrc]
    · simp [Http.tlsRead, hrc]

theorem write_spec (hssl : k.ssl = some ssl) (writable : Bool) (data : Bytes) :
    (write writable data k).ready = k.ready ∧ (write writable data k).ssl ≠ none ∧
      ((write writable data k).steps = k.steps ++ [.written data] ∨
        ∃ bytes, (write writable data k).steps = k.steps ++ [.written data] ++ [.sent bytes]) := by
  have hwrite : write writable data k = flush writable (act (.written data) { k with ssl := some (S.write data ssl) }) := by
    rw [write, hssl]
  obtain ⟨-, hready, hsteps, hnone⟩ := flush_spec writable (act (.written data) { k with ssl := some (S.write data ssl) })
  rw [hwrite]
  exact ⟨hready, fun h => absurd (hnone.mp h) (Option.some_ne_none _), hsteps⟩

theorem read_finished {writable : Bool} {data : Bytes} (hinit : S.isInitFinished (S.bioWrite data ssl) = true) :
    read t react id writable data ssl k c h = readLoop react id (S.bioWrite data ssl) k (c, h) := by
  rw [read, hinit]
  rfl

theorem read_unfinished {writable verified : Bool} {data : Bytes} {rc : ℤ} {ssl' : S.State} {k' : TlsSession S}
    (hinit : S.isInitFinished (S.bioWrite data ssl) = false) (hconnect : S.connect (S.bioWrite data ssl) = (rc, ssl'))
    (hverify : verify t.fingerprint (S.getPeerCertificate ssl') { k with ssl := some ssl' } = (verified, k')) :
    read t react id writable data ssl k c h =
      if rc < 0 ∧ S.getError ssl' rc = SSL_ERROR_WANT_READ then (flush writable { k with ssl := some ssl' }, c, h)
      else if rc = 1 then
        if !verified then (act .refused k', Http.close react UV_EPROTO id c h)
        else (write writable (request t c) { k' with ready := true }, c.handshake, h)
      else ({ k with ssl := some ssl' }, c, h) := by
  rw [read, hinit, hconnect]
  dsimp only
  rw [hverify]
  rfl

theorem read_spec (t : HttpsTarget) (react : Listeners) (id : ℕ) (writable : Bool) (data : Bytes) (hssl : k.ssl = some ssl)
    (c : HttpContext P) (h : Http P) :
    ∃ r, (read t react id writable data ssl k c h).2 = Http.tlsRead react id r c h ∧
      (read t react id writable data ssl k c h).1.ssl ≠ none ∧
      Outcome t c k (read t react id writable data ssl k c h).1 r := by
  have hfinished : finished k = S.isInitFinished (S.bioWrite data ssl) := by
    rw [finished, hssl, S.bioWrite_init]
    rfl
  cases hinit : S.isInitFinished (S.bioWrite data ssl) with
  | true =>
    obtain ⟨pieces, eof, hcontext, hready, hsome, hsteps⟩ := readLoop_spec react id (S.bioWrite data ssl) k (c, h)
    rw [read_finished hinit]
    exact ⟨_, hcontext, hsome, .decrypted pieces eof (hfinished.trans hinit) hready hsteps⟩
  | false =>
    rw [hinit] at hfinished
    obtain ⟨⟨rc, ssl'⟩, hconnect⟩ : ∃ result, S.connect (S.bioWrite data ssl) = result := ⟨_, rfl⟩
    -- a handshake that is over is one for which `SSL_connect` returned 1
    have hunfinished : rc ≠ 1 → S.isInitFinished ssl' = false := by
      intro hrc
      by_contra hover
      have hone := S.connect_init (S.bioWrite data ssl)
      rw [hconnect] at hone
      exact hrc (hone (Bool.eq_true_of_not_eq_false hover))
    obtain ⟨⟨verified, k'⟩, hverify⟩ :
      ∃ result, verify t.fingerprint (S.getPeerCertificate ssl') { k with ssl := some ssl' } = result := ⟨_, rfl⟩
    rw [read_unfinished hinit hconnect hverify]
    split
    · next hwant =>
      obtain ⟨hsame, hready, hsteps, hnone⟩ := flush_spec writable { k with ssl := some ssl' }
      have hrc : rc ≠ 1 := by omega
      exact ⟨.pending, rfl, fun h => absurd (hnone.mp h) (Option.some_ne_none _),
        .pending hfinished (hsame.trans (hunfinished hrc)) hready hsteps⟩
    · split
      · next hone =>
        have hspec := verify_spec t.fingerprint (S.getPeerCertificate ssl') { k with ssl := some ssl' }
        rw [hverify] at hspec
        obtain ⟨hssl', hready, ⟨hfalse, hsteps⟩ | ⟨htrue, cert, haccepts, hsteps⟩⟩ := hspec
        · obtain rfl : verified = false := hfalse
          have hsome : k'.ssl ≠ none := fun h => absurd (hssl'.symm.trans h) (Option.some_ne_none _)
          exact ⟨.refused, rfl, hsome, .refused hfinished hready (congrArg (· ++ [TlsStep.refused]) hsteps)⟩
        · obtain rfl : verified = true := htrue
          have hready' : ({ k' with ready := true } : TlsSession S).ssl = some ssl' := hssl'
          obtain ⟨hready, hsome, hwritten⟩ := write_spec hready' writable (request t c)
          refine ⟨.ready, rfl, hsome, .ready cert hfinished hready haccepts ?_⟩
          have hboth : k'.steps ++ [.written (request t c)] = k.steps ++ [.accepted cert, .written (request t c)] := by
            rw [show k'.steps = k.steps ++ [.accepted cert] from hsteps, List.append_assoc]
            rfl
          rwa [← hboth]
      · next hrc => exact ⟨.pending, rfl, Option.some_ne_none _, .pending hfinished (hunfinished hrc) rfl (Or.inl rfl)⟩

/-! ## What an event does to the context of the client -/

theorem close_context (react : Listeners) (status : ℤ) (id : ℕ) (c : HttpContext P) (h : Http P) :
    (Http.close react status id c h).1.data.headers = c.data.headers ∧
      (Http.close react status id c h).1.data.body = c.data.body ∧
      (c.closing = true → (Http.close react status id c h).1.closing = true) ∧
      (id ∈ h.storage → (Http.close react status id c h).1.closing = true) := by
  rw [Http.close]
  by_cases hmem : id ∈ h.storage
  · rw [if_neg (not_not.mpr hmem)]
    by_cases hreport : status < 0 ∧ Http.httpListener h c = true
    · rw [if_pos hreport]
      exact ⟨rfl, rfl, fun _ => rfl, fun _ => rfl⟩
    · rw [if_neg hreport]
      exact ⟨rfl, rfl, fun _ => rfl, fun _ => rfl⟩
  · rw [if_pos hmem]
    exact ⟨rfl, rfl, fun hclosing => hclosing, fun hin => absurd hin hmem⟩

/-- An event that brings no bytes leaves the request alone, and a handle that is closing stays so. -/
theorem onEvent_context (react : Listeners) (htls : c.tls = true) (he : Http.enabledEvent c e = true)
    (hread : ∀ r, e ≠ .tlsRead r) :
    (Http.onEvent react e id c h).1.data.headers = c.data.headers ∧
      (Http.onEvent react e id c h).1.data.body = c.data.body ∧
      (c.closing = true → (Http.onEvent react e id c h).1.closing = true) := by
  have hclose : ∀ status, (Http.close react status id c h).1.data.headers = c.data.headers ∧
      (Http.close react status id c h).1.data.body = c.data.body ∧
      (c.closing = true → (Http.close react status id c h).1.closing = true) := by
    intro status
    obtain ⟨hheaders, hbody, hclosing, -⟩ := close_context react status id c h
    exact ⟨hheaders, hbody, hclosing⟩
  cases e with
  | resolved status => exact ⟨rfl, rfl, fun hclosing => hclosing⟩
  | connected status =>
    rw [Http.onEvent, Http.onConnect, if_pos htls]
    split
    · exact hclose _
    · exact ⟨rfl, rfl, fun hclosing => hclosing⟩
  | read bytes => simp [Http.enabledEvent, htls] at he
  | tlsRead r => exact absurd rfl (hread r)
  | readError nread => exact hclose nread
  | timer => exact hclose UV_ETIMEDOUT
  | closed => exact ⟨rfl, rfl, fun hclosing => hclosing⟩

theorem kept_tls (react : Listeners) (id : ℕ) :
    Http.Kept react id fun s : HttpContext P × Http P => s.1.tls = true where
  context := fun _ _ _ hsame htls => hsame.tls.trans htls
  invoke := fun _ _ _ _ htls => htls
  erase := fun _ _ _ htls => htls

/-- The context of a client after a label that is not a read of it. -/
structure Carried (id : ℕ) (h h' : Http P) : Prop where
  known : id < h'.sequence
  entry : ∀ c', h'.contexts id = some c' → ∃ c, h.contexts id = some c ∧ c'.tls = c.tls ∧
    c'.data.headers = c.data.headers ∧ c'.data.body = c.data.body ∧ (c.closing = true → c'.closing = true)

theorem carried_next (hw : Http.WellFormed h) (hid : id < h.sequence) (htls : ∀ c, h.contexts id = some c → c.tls = true)
    {l : Http.Label} (hl : (Http.machine P react).enabled h l) (hread : ∀ r, l ≠ .event id (.tlsRead r)) :
    Carried id h (Http.next react h l) := by
  by_cases hother : ∀ e, l ≠ .event id e
  · obtain ⟨hlt, hentry, -⟩ := Http.other_next hw hid hl hother
    exact ⟨hlt, fun c' hc' => ⟨c', hentry.symm.trans hc', rfl, rfl, rfl, fun hclosing => hclosing⟩⟩
  · push Not at hother
    obtain ⟨e, rfl⟩ := hother
    obtain ⟨c, hc, he⟩ := hl
    obtain ⟨hlt, -⟩ := (Http.kept_entry react id id (h.contexts id)).event hw hc he ⟨hid, rfl⟩
    obtain ⟨hsequence, -, hown⟩ := Http.next_contexts react id hc e
    refine ⟨hsequence ▸ hlt, fun c' hc' => ⟨c, hc, ?_, ?_⟩⟩
    · rw [hown c' hc', (kept_tls react id).event hw hc he (htls c hc), htls c hc]
    · rw [hown c' hc']
      exact onEvent_context react (htls c hc) he fun r hr => hread r (congrArg (Http.Label.event id) hr)

/-! ## The steps follow the protocol -/

/-- The steps are allowed and lead to the phase. -/
structure At (S : OpenSsl) (fingerprint : Option Bytes) (first : Bytes) (steps : List (TlsStep S)) (phase : Phase) : Prop where
  run : (protocol S fingerprint first).Run .waiting steps
  phase : (protocol S fingerprint first).after .waiting steps = phase

section
variable {fingerprint : Option Bytes} {first : Bytes} {steps steps' : List (TlsStep S)} {phase : Phase}

theorem At.append (ha : At S fingerprint first steps phase) {more : List (TlsStep S)}
    (hmore : (protocol S fingerprint first).Run phase more) :
    At S fingerprint first (steps ++ more) ((protocol S fingerprint first).after phase more) := by
  constructor
  · rw [Machine.run_append, ha.phase]
    exact ⟨ha.run, hmore⟩
  · rw [Machine.after_append, ha.phase]

theorem At.sent (ha : At S fingerprint first steps phase) (hphase : phase = .waiting ∨ phase = .opened)
    (hsteps : steps' = steps ∨ ∃ bytes, steps' = steps ++ [.sent bytes]) : At S fingerprint first steps' phase := by
  obtain rfl | ⟨bytes, rfl⟩ := hsteps
  · exact ha
  · obtain rfl | rfl := hphase
    · exact ha.append ⟨trivial, trivial⟩
    · exact ha.append ⟨trivial, trivial⟩

theorem At.refused (ha : At S fingerprint first steps phase) (hphase : phase = .waiting ∨ phase = .opened) :
    At S fingerprint first (steps ++ [.refused]) .refused := by
  obtain rfl | rfl := hphase
  · exact ha.append ⟨trivial, trivial⟩
  · exact ha.append ⟨trivial, trivial⟩

theorem At.handed (ha : At S fingerprint first steps .opened) (pieces : List Bytes) :
    At S fingerprint first (steps ++ pieces.map .handed) .opened := by
  induction pieces generalizing steps with
  | nil => rwa [List.map_nil, List.append_nil]
  | cons bytes pieces ih =>
    have hone : At S fingerprint first (steps ++ [.handed bytes]) .opened := ha.append ⟨trivial, trivial⟩
    have hrest := ih hone
    rwa [List.append_assoc] at hrest

/-- The request is written when the peer is accepted, and the first one is `first`. -/
theorem At.granted (ha : At S fingerprint first steps phase) {cert : S.Certificate} {data : Bytes}
    (haccepts : Accepts fingerprint cert) (hphase : phase = .waiting ∧ data = first ∨ phase = .opened) :
    At S fingerprint first (steps ++ [.accepted cert, .written data]) .opened := by
  obtain ⟨rfl, rfl⟩ | rfl := hphase
  · exact ha.append ⟨haccepts, rfl, trivial⟩
  · exact ha.append ⟨haccepts, trivial, trivial⟩

end

/-- What the client and its context are in a phase. A peer that is refused has its handle closing. -/
def Holds (t : HttpsTarget) (id : ℕ) (first : Bytes) (s : Http P × TlsSession S) : Phase → Prop
  | .waiting => finished s.2 = false ∧ ∀ c, s.1.contexts id = some c → request t c = first
  | .granted _ => False
  | .opened => True
  | .refused => s.2.ssl ≠ none ∧ ∀ c, s.1.contexts id = some c → c.closing = true

structure Ordered (t : HttpsTarget) (id : ℕ) (first : Bytes) (s : Http P × TlsSession S) : Prop where
  wellFormed : Http.WellFormed s.1
  known : id < s.1.sequence
  tls : ∀ c, s.1.contexts id = some c → c.tls = true
  follows : ∃ phase, At S t.fingerprint first s.2.steps phase ∧ Holds t id first s phase

variable {first : Bytes} {s : Http P × TlsSession S}

theorem handshake_spec (host : String) (writable : Bool) (k : TlsSession S) :
    finished (handshake host writable k) = false ∧ (handshake host writable k).ready = k.ready ∧
      ((handshake host writable k).steps = k.steps ∨ ∃ bytes, (handshake host writable k).steps = k.steps ++ [.sent bytes]) := by
  obtain ⟨hfinished, hready, hsteps, -⟩ := flush_spec writable { k with ssl := some (S.doHandshake (S.new host)) }
  exact ⟨hfinished.trans (S.new_init host), hready, hsteps⟩

/-- A label that is no read leaves the session alone, or begins its handshake. -/
theorem next_http (t : HttpsTarget) (react : Listeners) (id : ℕ) (s : Http P × TlsSession S) (l : Http.Label) (writable : Bool) :
    (next t react id s (.http l writable)).1 = Http.next react s.1 l ∧
      ((next t react id s (.http l writable)).2 = s.2 ∨
        (∃ status, l = .event id (.connected status)) ∧
          (next t react id s (.http l writable)).2 = handshake t.host writable s.2) := by
  refine ⟨rfl, ?_⟩
  cases l with
  | fetch req => exact Or.inl rfl
  | destroy listener => exact Or.inl rfl
  | event j e =>
    cases e with
    | connected status =>
      by_cases hown : j = id ∧ 0 ≤ status
      · exact Or.inr ⟨⟨status, by rw [hown.1]⟩, if_pos hown⟩
      · exact Or.inl (if_neg hown)
    | _ => exact Or.inl rfl

/-- A read is an event of the context. -/
theorem next_read (t : HttpsTarget) (react : Listeners) {id : ℕ} (hc : s.1.contexts id = some c) (hssl : s.2.ssl ≠ none)
    (data : Bytes) (writable : Bool) :
    ∃ r, (next t react id s (.read data writable)).1 = Http.next react s.1 (.event id (.tlsRead r)) ∧
      (next t react id s (.read data writable)).2.ssl ≠ none ∧
      Outcome t c s.2 (next t react id s (.read data writable)).2 r := by
  obtain ⟨ssl, hsome⟩ := Option.ne_none_iff_exists'.mp hssl
  obtain ⟨r, hcontext, hssl', houtcome⟩ := read_spec t react id writable data hsome c s.1
  have hnext : next t react id s (.read data writable) =
      (Http.set id (read t react id writable data ssl s.2 c s.1).2.1 (read t react id writable data ssl s.2 c s.1).2.2,
        (read t react id writable data ssl s.2 c s.1).1) := by
    simp only [next, hc, hsome]
  have hopen : Http.Event.tlsRead r ≠ .closed := nofun
  rw [hnext, hcontext]
  exact ⟨r, (Http.next_open react hc hopen).symm, hssl', houtcome⟩

theorem ordered_http (h : Ordered t id first s) {l : Http.Label} {writable : Bool}
    (henabled : (machine t react P S id).enabled s (.http l writable)) :
    Ordered t id first (next t react id s (.http l writable)) := by
  obtain ⟨hl, hread, hconnected⟩ := henabled
  obtain ⟨hhttp, hsession⟩ := next_http t react id s l writable
  obtain ⟨hknown, hentry⟩ := carried_next h.wellFormed h.known h.tls hl hread
  refine ⟨hhttp ▸ Http.wellFormed_next h.wellFormed hl, hhttp ▸ hknown, fun c' hc' => ?_, ?_⟩
  · obtain ⟨c, hc, htls, -⟩ := hentry c' (hhttp ▸ hc')
    exact htls.trans (h.tls c hc)
  · obtain ⟨phase, hat, hholds⟩ := h.follows
    refine ⟨phase, ?_, ?_⟩
    · obtain hsame | ⟨⟨status, hstatus⟩, hbegun⟩ := hsession
      · rw [hsame]
        exact hat
      · rw [hbegun]
        refine hat.sent ?_ (handshake_spec t.host writable s.2).2.2
        -- a client whose peer was refused has connected already
        cases phase with
        | waiting => exact Or.inl rfl
        | granted first => exact hholds.elim
        | opened => exact Or.inr rfl
        | refused => exact absurd (hconnected status hstatus) hholds.1
    · cases phase with
      | waiting =>
        refine ⟨?_, fun c' hc' => ?_⟩
        · obtain hsame | ⟨-, hbegun⟩ := hsession
          · rw [hsame]
            exact hholds.1
          · rw [hbegun]
            exact (handshake_spec t.host writable s.2).1
        · obtain ⟨c, hc, -, hheaders, hbody, -⟩ := hentry c' (hhttp ▸ hc')
          rw [request, hheaders, hbody]
          exact hholds.2 c hc
      | granted first => exact hholds
      | opened => trivial
      | refused =>
        refine ⟨?_, fun c' hc' => ?_⟩
        · obtain hsame | ⟨⟨status, hstatus⟩, -⟩ := hsession
          · rw [hsame]
            exact hholds.1
          · exact absurd (hconnected status hstatus) hholds.1
        · obtain ⟨c, hc, -, -, -, hclosing⟩ := hentry c' (hhttp ▸ hc')
          exact hclosing (hholds.2 c hc)

theorem ordered_read (h : Ordered t id first s) {data : Bytes} {writable : Bool}
    (henabled : (machine t react P S id).enabled s (.read data writable)) :
    Ordered t id first (next t react id s (.read data writable)) ∧
      ∃ r, (Http.machine P react).enabled s.1 (.event id (.tlsRead r)) ∧
        (next t react id s (.read data writable)).1 = Http.next react s.1 (.event id (.tlsRead r)) := by
  obtain ⟨hssl, c, hc, hopen, htls⟩ := henabled
  obtain ⟨r, hhttp, hssl', houtcome⟩ := next_read t react hc hssl data writable
  have he : Http.enabledEvent c (.tlsRead r) = true := by simp [Http.enabledEvent, hopen, htls]
  have hl : (Http.machine P react).enabled s.1 (.event id (.tlsRead r)) := ⟨c, hc, he⟩
  obtain ⟨hsequence, -, hown⟩ := Http.next_contexts react id hc (.tlsRead r)
  obtain ⟨hlt, -⟩ := (Http.kept_entry react id id (s.1.contexts id)).event h.wellFormed hc he ⟨h.known, rfl⟩
  refine ⟨⟨hhttp ▸ Http.wellFormed_next h.wellFormed hl, ?_, fun c' hc' => ?_, ?_⟩, r, hl, hhttp⟩
  · rw [hhttp, hsequence]
    exact hlt
  · rw [hown c' (hhttp ▸ hc')]
    exact (kept_tls react id).event h.wellFormed hc he htls
  · obtain ⟨phase, hat, hholds⟩ := h.follows
    -- a peer that was refused is not read, and between two reads nothing is granted
    have hphase : phase = .waiting ∨ phase = .opened := by
      cases phase with
      | waiting => exact Or.inl rfl
      | granted first => exact hholds.elim
      | opened => exact Or.inr rfl
      | refused =>
        rw [hholds.2 c hc] at hopen
        cases hopen
    cases houtcome with
    | pending hfinished hfinished' hready hsteps =>
      refine ⟨phase, hat.sent hphase hsteps, ?_⟩
      obtain rfl | rfl := hphase
      · refine ⟨hfinished', fun c' hc' => ?_⟩
        obtain rfl : c' = c := hown c' (hhttp ▸ hc')
        exact hholds.2 c' hc
      · trivial
    | refused hfinished hready hsteps =>
      rw [hsteps]
      refine ⟨.refused, hat.refused hphase, hssl', fun c' hc' => ?_⟩
      have hmem : id ∈ s.1.storage := by
        by_contra hgone
        rw [(h.wellFormed.tracked id c hc).2.closing hgone] at hopen
        cases hopen
      rw [hown c' (hhttp ▸ hc')]
      exact (close_context react UV_EPROTO id c s.1).2.2.2 hmem
    | ready cert hfinished hready haccepts hsteps =>
      have hwritten : At S t.fingerprint first (s.2.steps ++ [.accepted cert, .written (request t c)]) .opened := by
        refine hat.granted haccepts ?_
        obtain rfl | rfl := hphase
        · exact Or.inl ⟨rfl, hholds.2 c hc⟩
        · exact Or.inr rfl
      exact ⟨.opened, hwritten.sent (Or.inr rfl) hsteps, trivial⟩
    | decrypted pieces eof hfinished hready hsteps =>
      rw [hsteps]
      obtain rfl | rfl := hphase
      · rw [hholds.1] at hfinished
        cases hfinished
      · exact ⟨.opened, hat.handed pieces, trivial⟩

/-! ## How often the request is written -/

def isWritten : TlsStep S → Bool
  | .written _ => true
  | _ => false

/-- A read of a client that is ready finds the handshake over: the peer has not begun another one. -/
def Settled (s : Http P × TlsSession S) : Label → Prop
  | .http _ _ => True
  | .read _ _ => s.2.ready = true → finished s.2 = true

/-- The request is written when the client becomes ready. -/
def Counted (k : TlsSession S) : Prop := k.steps.countP isWritten = if k.ready then 1 else 0

theorem Counted.sent {k k' : TlsSession S} (h : Counted k) (hready : k'.ready = k.ready)
    (hsteps : k'.steps = k.steps ∨ ∃ bytes, k'.steps = k.steps ++ [.sent bytes]) : Counted k' := by
  have hsame : k'.steps.countP isWritten = k.steps.countP isWritten := by
    obtain heq | ⟨bytes, heq⟩ := hsteps
    · rw [heq]
    · rw [heq, List.countP_append]
      rfl
  rw [Counted, hsame, hready]
  exact h

theorem counted_next (h : Counted s.2) {l : Label} (henabled : (machine t react P S id).enabled s l) (hsettled : Settled s l) :
    Counted (next t react id s l).2 := by
  cases l with
  | http l writable =>
    obtain ⟨-, hsame | ⟨-, hbegun⟩⟩ := next_http t react id s l writable
    · rw [hsame]
      exact h
    · rw [hbegun]
      obtain ⟨-, hready, hsteps⟩ := handshake_spec t.host writable s.2
      exact h.sent hready hsteps
  | read data writable =>
    obtain ⟨hssl, c, hc, -⟩ := henabled
    obtain ⟨r, -, -, houtcome⟩ := next_read t react hc hssl data writable
    cases houtcome with
    | pending hfinished hfinished' hready hsteps => exact h.sent hready hsteps
    | refused hfinished hready hsteps =>
      rw [Counted, hsteps, hready, List.countP_append]
      exact h
    | ready cert hfinished hready haccepts hsteps =>
      have hfirst : s.2.ready = false := by
        by_contra hagain
        rw [hsettled (Bool.eq_true_of_not_eq_false hagain)] at hfinished
        cases hfinished
      have hnone : s.2.steps.countP isWritten = 0 := by
        rw [Counted, hfirst] at h
        exact h
      have hone : (s.2.steps ++ [TlsStep.accepted cert, TlsStep.written (request t c)]).countP isWritten = 1 := by
        rw [List.countP_append, hnone]
        rfl
      rw [Counted, hready]
      obtain heq | ⟨bytes, heq⟩ := hsteps
      · rw [heq, hone]
        rfl
      · rw [heq, List.countP_append, hone]
        rfl
    | decrypted pieces eof hfinished hready hsteps =>
      have hzero : (pieces.map (TlsStep.handed (S := S))).countP isWritten = 0 := by
        rw [List.countP_eq_zero]
        rintro step hstep
        obtain ⟨bytes, -, rfl⟩ := List.mem_map.mp hstep
        exact Bool.false_ne_true
      rw [Counted, hsteps, hready, List.countP_append, hzero]
      exact h

/-! ## All runs -/

theorem ordered_create (hw : Http.WellFormed h) {req : FetchRequest} (htls : req.tls = true) (t : HttpsTarget) (S : OpenSsl) :
    Ordered t h.sequence (HttpClient.handshake t.userAgent ⟨t.method, req.headers, req.body, t.host, t.path⟩)
      (Http.fetch h req, create S) := by
  have hself : (Http.fetch h req).contexts h.sequence = some (.create P req) := update_self _ _ _
  have hentry : ∀ c, (Http.fetch h req).contexts h.sequence = some c → c = .create P req := fun c hc =>
    Option.some.inj (hc.symm.trans hself)
  refine ⟨Http.wellFormed_fetch hw req, Nat.lt_succ_self _, fun c hc => ?_, .waiting, ⟨trivial, rfl⟩, rfl, fun c hc => ?_⟩
  · rw [hentry c hc]
    exact htls
  · rw [hentry c hc]
    rfl

/-- **An `HttpsClient` speaks to a verified peer only.** Whatever the peer sends and OpenSSL makes of it, the exchanges are
those of some run of the contexts, the client follows the protocol, and it writes its request once unless the peer begins
a second handshake. -/
theorem https_ordered (t : HttpsTarget) (react : Listeners) (P : HttpParser) (S : OpenSsl) (before : List Http.Label)
    (hbefore : (Http.machine P react).Run (Http.init P) before) (req : FetchRequest) (htls : req.tls = true)
    (labels : List Label) :
    let h := (Http.machine P react).after (Http.init P) before
    let M := machine t react P S h.sequence
    let s := M.after (Http.fetch h req, create S) labels
    M.Run (Http.fetch h req, create S) labels →
      (∃ ls, (Http.machine P react).Run (Http.init P) (before ++ .fetch req :: ls) ∧
          (Http.machine P react).after (Http.init P) (before ++ .fetch req :: ls) = s.1) ∧
        (protocol S t.fingerprint (HttpClient.handshake t.userAgent ⟨t.method, req.headers, req.body, t.host, t.path⟩)).Run
          .waiting s.2.steps ∧
        (M.EachStep Settled (Http.fetch h req, create S) labels → s.2.steps.countP isWritten ≤ 1) := by
  intro h M s run
  have hstart := ordered_create (Http.wellFormed_run hbefore) htls t S
  have hstep : ∀ s l, Ordered t h.sequence
      (HttpClient.handshake t.userAgent ⟨t.method, req.headers, req.body, t.host, t.path⟩) s → M.enabled s l →
      Ordered t h.sequence (HttpClient.handshake t.userAgent ⟨t.method, req.headers, req.body, t.host, t.path⟩) (M.next s l) ∧
        ∃ ls, (Http.machine P react).Run s.1 ls ∧ (Http.machine P react).after s.1 ls = (M.next s l).1 := by
    intro s l ho henabled
    cases l with
    | http l writable =>
      exact ⟨ordered_http ho henabled, [l], ⟨henabled.1, trivial⟩, rfl⟩
    | read data writable =>
      obtain ⟨hnext, r, hl, hhttp⟩ := ordered_read ho henabled
      exact ⟨hnext, [.event h.sequence (.tlsRead r)], ⟨hl, trivial⟩, hhttp.symm⟩
  refine ⟨?_, ?_, fun hsettled => ?_⟩
  · obtain ⟨ls, hrun, hafter⟩ := run.refined (N := Http.machine P react) (f := Prod.fst) hstep hstart
    refine ⟨ls, Machine.run_append.mpr ⟨hbefore, trivial, hrun⟩, ?_⟩
    rw [Machine.after_append]
    exact hafter
  · obtain ⟨phase, hat, -⟩ := (run.invariant (fun s l ho henabled => (hstep s l ho henabled).1) hstart).follows
    exact hat.run
  · have hcounted : Counted s.2 := by
      have hrestricted := (Machine.run_restrict_iff Settled _ _).mpr ⟨run, hsettled⟩
      have hnext : ∀ s l, Counted s.2 → (M.restrict Settled).enabled s l → Counted ((M.restrict Settled).next s l).2 :=
        fun _ _ hcounted henabled => counted_next hcounted henabled.1 henabled.2
      have hstart : Counted (create S) := rfl
      have hend := Machine.Run.invariant (I := fun s => Counted s.2) hnext hstart hrestricted
      rwa [Machine.after_restrict] at hend
    rw [hcounted]
    split <;> decide

/-- A peer with one certificate, named by its digest: its first record ends the handshake, the others are data. -/
def script (cert : Bytes) : OpenSsl where
  State := Bool × List Bytes
  Certificate := Bytes
  new _ := (false, [])
  doHandshake s := s
  connect s := if s.1 then (1, s) else if s.2 = [] then (-1, s) else (1, true, s.2.tail)
  getError _ _ := SSL_ERROR_WANT_READ
  isInitFinished s := s.1
  getPeerCertificate _ := some cert
  digest cert := if cert.length = 32 then some cert else none
  read s := match s.2 with
    | [] => (.error (-1), s)
    | bytes :: records => (.ok bytes, s.1, records)
  write _ s := s
  bioWrite bytes s := (s.1, s.2 ++ [bytes])
  memData _ := [22]
  bioReset s := s
  buffered s := s.2.length
  new_init _ := rfl
  connect_init := by
    intro s hfinished
    by_cases hs : s.1 = true
    · rw [if_pos hs]
    · by_cases hnone : s.2 = []
      · rw [if_neg hs, if_pos hnone] at hfinished
        exact absurd hfinished hs
      · rw [if_neg hs, if_neg hnone]
  bioWrite_init _ _ := rfl
  bioReset_init _ := rfl
  read_lt := by
    rintro ⟨finished, records⟩ bytes hread
    cases records with
    | nil => cases hread
    | cons record records => exact Nat.lt_succ_self _
  digest_length := by
    intro cert md hmd
    by_cases hlength : cert.length = 32
    · rw [if_pos hlength] at hmd
      exact Option.some.inj hmd ▸ hlength
    · rw [if_neg hlength] at hmd
      cases hmd

/-- A peer with the certificate that was configured, and its response. -/
theorem https_ordered_accepted :
    let P := HttpParser.script [[.headersComplete 200, .body (ascii "ok"), .messageComplete]]
    let S := script (List.replicate 32 0xab)
    let t : HttpsTarget := ⟨.post, "127.0.0.1", "/json_rpc", "nonces", some ((List.replicate 32 (ascii "ab")).flatten)⟩
    let req : FetchRequest := ⟨∅, ascii "\x7b\x7d", true, 0, 2, 1⟩
    let s := (machine t (fun _ => ⟨[], []⟩) P S 0).after (Http.fetch (Http.init P) req, create S)
      [.http (.event 0 (.connected 0)) true, .read [22] true, .read [23] true]
    (∃ ls, (Http.machine P fun _ => ⟨[], []⟩).Run (Http.init P) ([] ++ .fetch req :: ls) ∧
        (Http.machine P fun _ => ⟨[], []⟩).after (Http.init P) ([] ++ .fetch req :: ls) = s.1) ∧
      (protocol S t.fingerprint (HttpClient.handshake "nonces" ⟨.post, ∅, ascii "\x7b\x7d", "127.0.0.1", "/json_rpc"⟩)).Run
        .waiting s.2.steps ∧ s.2.steps.countP isWritten ≤ 1 := by
  intro P S t req s
  obtain ⟨hcontexts, hprotocol, honce⟩ := https_ordered t (fun _ => ⟨[], []⟩) P S [] trivial req rfl
    [.http (.event 0 (.connected 0)) true, .read [22] true, .read [23] true]
    ⟨⟨⟨_, rfl, rfl⟩, nofun, fun _ _ => rfl⟩, ⟨nofun, _, rfl, rfl, rfl⟩, ⟨by decide +kernel, _, rfl, rfl, rfl⟩, trivial⟩
  exact ⟨hcontexts, hprotocol, honce ⟨trivial, nofun, fun _ => by decide +kernel, trivial⟩⟩

end HttpsClient
end NoncesHeatmap
