import WebServer.ReplyCases

/-!
# The keep-alive promise

`SetKeepAlive` decides what the head says; `OnResponseFinished` asks the request
again when the response is out. Between the two the handlers read, write and move
file bytes, and none of that changes the context (`delivering_context`). The two
decisions differ on the early exits 403 and 413 alone, where the head says close.
-/

namespace WebServer

open KeyedList

namespace HttpResponse

/-- A line of the head, as the serialisation loop writes it. -/
def Says (o : HeaderOrder) (r : HttpResponse) : Prop :=
  (lit "Connection", lit "keep-alive") ∈ r.lines o

theorem connectionValue_eq (keepAlive : Bool) :
    connectionValue keepAlive = lit "keep-alive" ↔ keepAlive = true := by
  cases keepAlive <;> decide

theorem says_built (o : HeaderOrder) (r : HttpResponse) :
    Says o r.buildDefaultHeaders ↔ r.keepAlive = true := by
  have hfind : r.buildDefaultHeaders.headers.find (lit "Connection") =
      some (connectionValue r.keepAlive) := by
    by_cases hnone : r.headers.find (lit "Content-Type") = none <;>
      cases hset : r.contentLengthSet <;> simp [buildDefaultHeaders, hnone, hset, setHeader]
  rw [Says, lines, (o.perm _).mem_iff, Dict.mem_pairs_iff, hfind, Option.some.injEq]
  exact connectionValue_eq r.keepAlive

end HttpResponse

open HttpResponse

theorem gzipBody_keepAlive (env : Env) (req : HttpRequest) (r : HttpResponse) :
    (gzipBody env req r).keepAlive = r.keepAlive := by
  rw [gzipBody]
  split
  · split <;> rfl
  · rfl

/-- The response whose default headers were filled in last, and the text behind its head. -/
def Reply.Serializes (env : Env) (p : Reply) (r : HttpResponse) : Prop :=
  p.response = r.buildDefaultHeaders ∧ ∃ tail, p.bytes = p.response.head env.order ++ tail

theorem serializes_writeAll (env : Env) (r : HttpResponse) (opened : List Str) :
    (writeAll env r opened).Serializes env r := ⟨rfl, _, rfl⟩

/-- Every branch serialises one response; the early exits promise to close, the
others what the request asks for. -/
theorem reply_serializes (env : Env) (dir : Str) (router : Option Router) (req : HttpRequest)
    (r : HttpResponse) :
    ∃ filled, (reply env dir router req r).Serializes env filled ∧
      ((Refused env dir router req ∧ filled.keepAlive = false) ∨
        (¬Refused env dir router req ∧ filled.keepAlive = req.isKeepAlive)) := by
  rcases reply_cases env dir router req r with
    ⟨handler, hrouted, hreply⟩ | ⟨hrefused, code, status, text, -, hreply⟩ |
    ⟨file, hfile, hreply⟩ | ⟨hserved, -, loaded, -, hreply⟩
  · rw [hreply]
    refine ⟨_, serializes_writeAll env _ [], Or.inr ⟨?_, gzipBody_keepAlive env req _⟩⟩
    rintro ⟨hunrouted, -⟩
    exact Option.some_ne_none _ (hrouted.symm.trans hunrouted)
  · rw [hreply]
    exact ⟨_, serializes_writeAll env _ [], Or.inl ⟨hrefused, rfl⟩⟩
  · rw [hreply]
    let path := servedPath env dir req
    refine ⟨(((r.setStatus 200 (lit "OK")).setHeader (lit "Content-Type")
      (MimeType.getMime path)).setHeader (lit "Content-Length") (toDec file.size)).setKeepAlive
        req.isKeepAlive, ⟨rfl, [], ?_⟩, Or.inr ⟨not_refused hfile.served, rfl⟩⟩
    rw [List.append_nil]
    rfl
  · rw [hreply]
    refine ⟨_, serializes_writeAll env _ _, Or.inr ⟨not_refused hserved, ?_⟩⟩
    rw [gzipBody_keepAlive]
    split <;> rfl

namespace Connection

/-- The states of a connection between `Process` and the end of the response: the
handlers read, write, move file bytes, and change interest and bookkeeping. -/
inductive Delivering (start : Connection) : Connection → Prop where
  | start : Delivering start start
  | read {c : Connection} (arrival : Arrival) : Delivering start c →
      Delivering start (c.read arrival).2.1
  | write {c : Connection} (sends : Transfers) : Delivering start c →
      Delivering start (c.write sends).2.1
  | file {c : Connection} (sendFileFd : Int) (sendFileLen : Nat) : Delivering start c →
      Delivering start { c with sendFileFd, sendFileLen }
  | interest {c : Connection} (channel : Channel) : Delivering start c →
      Delivering start { c with channel }
  | mark {c : Connection} (state : ConnState) (writeState : WriteState) : Delivering start c →
      Delivering start { c with state, writeState }

theorem delivering_context {start c : Connection} (h : Delivering start c) :
    c.context = start.context := by
  induction h with
  | start => rfl
  | read arrival _ ih => exact ih
  | write sends _ ih => exact ih
  | file sendFileFd sendFileLen _ ih => exact ih
  | interest channel _ ih => exact ih
  | mark state writeState _ ih => exact ih

theorem resetForNextRequest_state (c : Connection) :
    c.resetForNextRequest.1.state = .connected := by
  by_cases h : 0 ≤ c.sendFileFd <;> simp [resetForNextRequest, enableReadEvent, h]

/-- `OnResponseFinished` keeps the connection exactly when the request asks for it. -/
theorem onResponseFinished_keeps (c : Connection) :
    (c.onResponseFinished.1 = true ∧ c.onResponseFinished.2.1.state = .connected) ↔
      c.context.request.isKeepAlive = true := by
  by_cases h : c.isKeepAlive = true
  · rw [onResponseFinished, if_pos h]
    exact iff_of_true ⟨rfl, resetForNextRequest_state c⟩ h
  · rw [onResponseFinished, if_neg h]
    exact iff_of_false (fun both => Bool.noConfusion both.1) h

/-- The head appended by `Process` says keep-alive exactly when the end of that
response, however it is delivered, keeps the connection. -/
def KeepsPromise (env : Env) (c c' : Connection) : Prop :=
  (∃ tail, c'.writeBuffer.peekReadable =
    c.writeBuffer.peekReadable ++ (c'.response.head env.order ++ tail)) ∧
  ∀ w, Delivering c' w → (c'.response.Says env.order ↔
    (w.onResponseFinished.1 = true ∧ w.onResponseFinished.2.1.state = .connected))

/-- The promise is kept unless a 403 or 413 answers a request for keep-alive. -/
theorem keepsPromise_iff {env : Env} {c : Connection} {ctx : HttpContext} {rest : Buffer}
    (hwf : c.writeBuffer.Wf) (parsed : c.parsed = (.complete, ctx, rest)) :
    (c.process env).1 = .complete ∧
      (KeepsPromise env c (c.process env).2.1 ↔
        ¬(Refused env c.resourceDir c.router ctx.request ∧ ctx.request.isKeepAlive = true)) := by
  rw [process_complete parsed]
  refine ⟨rfl, ?_⟩
  obtain ⟨filled, ⟨hresponse, tail, hbytes⟩, hdecided⟩ :=
    reply_serializes env c.resourceDir c.router ctx.request c.response
  generalize hp : reply env c.resourceDir c.router ctx.request c.response = p at hresponse hbytes
  have hsays : p.response.Says env.order ↔ filled.keepAlive = true :=
    hresponse ▸ says_built env.order filled
  have hkept : ∀ w, Delivering ({ c with context := ctx, readBuffer := rest }.store env p).1 w →
      ((w.onResponseFinished.1 = true ∧ w.onResponseFinished.2.1.state = .connected) ↔
        ctx.request.isKeepAlive = true) := by
    intro w hw
    rw [onResponseFinished_keeps, delivering_context hw, store_context]
  have happended : ∃ tail, ({ c with context := ctx, readBuffer := rest }.store env
      p).1.writeBuffer.peekReadable = c.writeBuffer.peekReadable ++
        (({ c with context := ctx, readBuffer := rest }.store env p).1.response.head env.order ++
          tail) := by
    refine ⟨tail, ?_⟩
    rw [store_writeBuffer, store_response, Buffer.append_peekReadable hwf, hbytes]
  constructor
  · rintro ⟨-, hpromise⟩ ⟨hrefused, hkeep⟩
    have hagree := hpromise _ .start
    rw [store_response, hsays, hkept _ .start] at hagree
    rcases hdecided with ⟨-, hclose⟩ | ⟨hnot, -⟩
    · exact Bool.false_ne_true (hclose.symm.trans (hagree.mpr hkeep))
    · exact hnot hrefused
  · intro hnever
    refine ⟨happended, ?_⟩
    intro w hw
    rw [store_response, hsays, hkept w hw]
    rcases hdecided with ⟨hrefused, hclose⟩ | ⟨-, hsame⟩
    · have hnot : ¬ctx.request.isKeepAlive = true := fun hkeep => hnever ⟨hrefused, hkeep⟩
      exact iff_of_false (hclose ▸ Bool.false_ne_true) hnot
    · exact hsame ▸ Iff.rfl

/-- A missing file below the resource directory is answered 404 and the promise kept. -/
theorem keepsPromise_missing :
    let env := Env.table [⟨lit "/w", lit "/w", none⟩, ⟨lit "/w/a", lit "/w/a", none⟩]
    let c := receiving (lit "/w") none (lit "GET /a HTTP/1.1\r\n\r\n")
    (c.process env).1 = .complete ∧ KeepsPromise env c (c.process env).2.1 := by
  intro env c
  have hcomplete : c.parsed.1 = .complete := by decide +kernel
  obtain ⟨hresult, hiff⟩ := @keepsPromise_iff env c _ _ (Buffer.new_wf 1024) (parsed_eq hcomplete)
  refine ⟨hresult, hiff.mpr ?_⟩
  rintro ⟨⟨-, hrefused⟩, -⟩
  revert hrefused
  decide +kernel

/-- An HTTP/1.1 request for a path that does not resolve: the 403 says close, and the
connection is kept. -/
theorem forbidden_breaks_promise :
    let env := Env.table [⟨lit "/w", lit "/w", none⟩]
    let c := receiving (lit "/w") none (lit "GET /a HTTP/1.1\r\n\r\n")
    c.Ready ∧ (c.process env).1 = .complete ∧ ¬KeepsPromise env c (c.process env).2.1 := by
  intro env c
  refine ⟨ready_receiving _ _ _, by decide +kernel, ?_⟩
  rintro ⟨-, hpromise⟩
  have hkept : (c.process env).2.1.onResponseFinished.1 = true ∧
      (c.process env).2.1.onResponseFinished.2.1.state = .connected := by decide +kernel
  have hsays : ¬(c.process env).2.1.response.Says env.order := by
    unfold Says
    decide +kernel
  exact hsays ((hpromise _ .start).mpr hkept)

end Connection

end WebServer
