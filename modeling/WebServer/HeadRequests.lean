import WebServer.ConnectionMemory
import WebServer.ResponseFraming

/-!
# Requests for the head only

HEAD is not among the methods that the router tells apart, so such a request is answered
from the file system. The branch that reads the file clears the body again; the exits of
the path check and of the size limit come before it and write their text.

The method type is computed from the method, and in every run they agree.
-/

namespace WebServer

open Resumable Connection

/-! ## The method and its type -/

namespace HttpContext

/-- The type of the request is that of its method. -/
def Typed (ctx : HttpContext) : Prop :=
  ctx.request.methodType = HttpRequest.methodOf ctx.request.method

theorem typed_reset : reset.Typed := by
  unfold Typed
  decide

theorem parseHeaderLine_typed {ctx : HttpContext} (h : ctx.Typed) (line : Str) :
    (ctx.parseHeaderLine line).2.Typed := by
  unfold parseHeaderLine
  split
  · exact h
  · dsimp only
    split
    · split
      · exact h
      · exact h
    · exact h

theorem headerMove_typed {ctx : HttpContext} (h : ctx.Typed) (input : Str) (n : Nat)
    {r : HttpRequest} {m : Nat} (htaken : taken (headerMove ctx input n) = some (r, m)) :
    r.methodType = HttpRequest.methodOf r.method := by
  by_cases hblank : input.take n = []
  · simp only [headerMove, if_pos hblank, taken, Option.some.injEq, Prod.mk.injEq] at htaken
    rw [← htaken.1]
    exact h
  · have hline := parseHeaderLine_typed h (input.take n)
    simp only [taken_headerMove ctx hblank, Option.some.injEq, Prod.mk.injEq] at htaken
    rw [← htaken.1]
    exact hline

/-- A request line sets both, and nothing else sets either. -/
theorem move_typed {ctx : HttpContext} (h : ctx.Typed) {input : Str} {r : HttpRequest} {n : Nat}
    (htaken : taken (move ctx input) = some (r, n)) :
    r.methodType = HttpRequest.methodOf r.method := by
  unfold move at htaken
  cases hs : ctx.state with
  | requestLine =>
    cases hcrlf : findCrlf input with
    | none => simp [hs, hcrlf, taken] at htaken
    | some len =>
      simp only [hs, hcrlf, taken_startMove, Option.some.injEq, Prod.mk.injEq] at htaken
      rw [← htaken.1]
      rfl
  | headers =>
    cases hcrlf : findCrlf input with
    | none => simp [hs, hcrlf, taken] at htaken
    | some len =>
      simp only [hs, hcrlf] at htaken
      exact headerMove_typed h input len htaken
  | body =>
    simp only [hs, bodyMove] at htaken
    by_cases hlarge : maxBodySize < ctx.contentLength
    · simp only [if_pos hlarge, taken, Option.some.injEq, Prod.mk.injEq] at htaken
      rw [← htaken.1]
      exact h
    · by_cases hwait : input.length < ctx.contentLength
      · simp [if_neg hlarge, if_pos hwait, taken] at htaken
      · simp only [if_neg hlarge, if_neg hwait, taken, Option.some.injEq, Prod.mk.injEq] at htaken
        rw [← htaken.1]
        exact h
  | finish =>
    simp only [hs, taken, Option.some.injEq, Prod.mk.injEq] at htaken
    rw [← htaken.1]
    exact h

theorem parseRequest_typed {ctx : HttpContext} (h : ctx.Typed) {b : Buffer} (hb : b.Wf) :
    (ctx.parseRequest b).2.1.Typed := by
  refine drives_invariant (fun ctx _ => ctx.Typed) ?_ ?_ (parseRequest_drives ctx hb).2 h
  · intro ctx input ctx' n htyped hmove
    exact move_typed htyped (by rw [hmove]; rfl)
  · intro ctx input r ctx' n htyped hmove
    exact move_typed htyped (by rw [hmove]; rfl)

end HttpContext

namespace Connection

variable {c : Connection}

theorem typed_keeps {d : Connection} (h : c.context.Typed) (keeps : Keeps c d) :
    d.context.Typed := by
  rcases keeps.context with hsame | hreset
  · rw [hsame]
    exact h
  · rw [hreset]
    exact HttpContext.typed_reset

theorem typed_processInWorker (hb : c.readBuffer.Wf) (h : c.context.Typed) (env : Env) :
    (c.processInWorker env).1.context.Typed := by
  have hparsed : c.parsed.2.1.Typed := HttpContext.parseRequest_typed h hb
  have hend := processInWorker_end hb env
  generalize c.processInWorker env = out at hend ⊢
  cases hend with
  | incomplete ctx rest _ heq =>
    rw [heq] at hparsed
    exact hparsed
  | error ctx rest _ heq =>
    rw [heq] at hparsed
    exact hparsed
  | complete ctx rest _ heq =>
    rw [heq] at hparsed
    rw [store_context]
    exact hparsed

theorem typed_handleRead (hb : c.readBuffer.Wf) (h : c.context.Typed) (env : Env)
    (arrival : Arrival) : (c.handleRead env arrival).1.context.Typed := by
  have hend := handleRead_end hb env arrival
  generalize c.handleRead env arrival = out at hend ⊢
  cases hend with
  | closing => exact h
  | reading => exact h
  | processing b packets hfilled =>
    exact typed_processInWorker (c := { c with readBuffer := b, state := .processing })
      hfilled h env

theorem typed_call (hwf : BuffersWf c) (h : c.context.Typed) (cb : Callback) (env : Env)
    (sends : Transfers) : (c.call cb env sends).1.context.Typed := by
  cases cb with
  | trySend =>
    by_cases hclosed : c.state = .closed
    · simpa only [call, if_pos hclosed] using h
    · simpa only [call, if_neg hclosed] using typed_keeps h (keeps_trySend hwf.write sends)
  | processInWorker => exact typed_processInWorker hwf.read h env
  | handleClose => exact h
  | removeConnection => exact h

end Connection

namespace Sys

theorem typed_step {s t : Sys} {a : Act} (hwf : BuffersWf s.conn) (h : s.conn.context.Typed)
    (hstep : s.step a = some t) : t.conn.context.Typed := by
  cases taken_of_step hstep with
  | readable env arrival => exact typed_handleRead hwf.read h env arrival
  | writable sends files => exact typed_keeps h (keeps_handleWrite hwf.write sends files)
  | hangup => exact h
  | swap => exact h
  | run env sends cb rest => exact typed_call hwf h cb env sends
  | release => exact typed_keeps h (keeps_close s.conn)

theorem typed_run {c : Connection} (fresh : Fresh c) {as : List Act} {s : Sys}
    (run : exec (start c) as = some s) : BuffersWf s.conn ∧ s.conn.context.Typed := by
  refine GuardedRuns.invariant_of_run (fun s => BuffersWf s.conn ∧ s.conn.context.Typed)
    (fun _ _ _ h hstep => ⟨buffersWf_step h.1 hstep, typed_step h.1 h.2 hstep⟩)
    ⟨⟨fresh.ready.readBuffer, fresh.ready.writeBuffer⟩, ?_⟩ run
  show c.context.Typed
  rw [fresh.context]
  exact HttpContext.typed_reset

end Sys

/-! ## The reply -/

theorem methodOf_head : HttpRequest.methodOf (lit "HEAD") = .unknown := by decide

/-- No handler takes a HEAD request. -/
theorem unrouted_head {ctx : HttpContext} (h : ctx.Typed) (isHead : ctx.request.method = lit "HEAD")
    (router : Option Router) : Unrouted router ctx.request := by
  have htype : ctx.request.methodType = .unknown := by
    rw [h, isHead]
    exact methodOf_head
  cases router with
  | none => rfl
  | some router => simp [Unrouted, Router.handlerFor, htype]

/-- There is nothing to compress. -/
theorem gzipBody_empty {r : HttpResponse} (h : r.body = []) (env : Env) (req : HttpRequest) :
    gzipBody env req r = r := by
  simp [gzipBody, h]

namespace Connection

/-- What a call of `Process` appends ends with the blank line of the head, and no file is left
to sendfile. -/
def HeadOnly (env : Env) (c c' : Connection) : Prop :=
  c'.writeBuffer.peekReadable = c.writeBuffer.peekReadable ++ c'.response.head env.order ∧
    c'.sendFileFd = c.sendFileFd

theorem headOnly_writeAll {c : Connection} (hwf : c.writeBuffer.Wf) (env : Env) (r : HttpResponse)
    (opened : List Str) : HeadOnly env c (c.store env (writeAll env r opened)).1 ↔ r.body = [] := by
  have hbytes : (writeAll env r opened).bytes =
      (writeAll env r opened).response.head env.order ++ r.body := by
    simp only [writeAll, HttpResponse.toString, HttpResponse.buildDefaultHeaders_body]
  have happended : (c.store env (writeAll env r opened)).1.writeBuffer.peekReadable =
      c.writeBuffer.peekReadable ++
        ((writeAll env r opened).response.head env.order ++ r.body) := by
    rw [store_writeBuffer, Buffer.append_peekReadable hwf, hbytes]
  have hfd : (c.store env (writeAll env r opened)).1.sendFileFd = c.sendFileFd := rfl
  rw [HeadOnly, happended, store_response, hfd]
  constructor
  · rintro ⟨hsame, -⟩
    have hhead := List.append_cancel_left hsame
    simpa using hhead
  · intro hempty
    rw [hempty, List.append_nil]
    exact ⟨rfl, rfl⟩

/-- The exits in front of the file write their text. -/
theorem not_headOnly_refuse {c : Connection} (hwf : c.writeBuffer.Wf) (env : Env) (code : Int)
    (status : Str) {text : Str} (some : text ≠ []) (r : HttpResponse) :
    ¬HeadOnly env c (c.store env (refuse env code status text r)).1 := by
  intro honly
  exact some ((headOnly_writeAll hwf env _ []).mp honly)

theorem headOnly_readReply {c : Connection} (hwf : c.writeBuffer.Wf) (env : Env)
    (dir filename path : Str) {req : HttpRequest} (isHead : req.method = lit "HEAD")
    (r : HttpResponse) (opened : List Str) :
    HeadOnly env c (c.store env (readReply env dir filename path req r opened)).1 := by
  simp only [readReply, if_pos isHead]
  rw [gzipBody_empty rfl]
  exact (headOnly_writeAll hwf env _ _).mpr rfl

theorem headOnly_reply_iff {c : Connection} (hwf : c.writeBuffer.Wf) {env : Env} {dir : Str}
    {router : Option Router} {req : HttpRequest} (unrouted : Unrouted router req)
    (isHead : req.method = lit "HEAD") (r : HttpResponse) :
    HeadOnly env c (c.store env (reply env dir router req r)).1 ↔
      PathUtil.safePath env.fs dir req.path ≠ [] ∧
        FileUtil.fileSize env.fs (dir ++ servedPath env dir req) ≤ maxFileSize := by
  rw [reply_unrouted unrouted, staticReply]
  by_cases hsafe : PathUtil.safePath env.fs dir req.path = []
  · rw [if_pos hsafe]
    have htext : lit "403 Forbidden" ≠ [] := by decide
    have hwrites := not_headOnly_refuse hwf env 403 (lit "Forbidden") htext r
    exact iff_of_false hwrites fun hserved => hserved.1 hsafe
  · rw [if_neg hsafe, fileReply]
    by_cases hlarge : maxFileSize < FileUtil.fileSize env.fs (dir ++ servedPath env dir req)
    · have htext : lit "File Too Large" ≠ [] := by decide
      have hwrites := not_headOnly_refuse hwf env 413 (lit "Payload Too Large") htext r
      refine iff_of_false ?_ fun hserved => Nat.not_lt.mpr hserved.2 hlarge
      exact (if_pos hlarge) ▸ hwrites
    · have hdynamic : ¬isStaticFile env req (dir ++ servedPath env dir req) = true := by
        simp [isStaticFile, isHead]
      have hread := headOnly_readReply hwf env dir (dir ++ servedPath env dir req)
        (servedPath env dir req) isHead r []
      refine iff_of_true ?_ ⟨hsafe, Nat.not_lt.mp hlarge⟩
      exact (if_neg hlarge).trans (if_neg hdynamic) ▸ hread

end Connection

open Connection

namespace Sys

/-- In every state of every run, whatever has been read since, a call of `Process` that
completes a HEAD request appends its head alone exactly when the path check passes and the
file is within the size limit. -/
theorem process_head_iff {c : Connection} (fresh : Fresh c) {as : List Act} {s : Sys}
    (run : exec (start c) as = some s) {taken : Connection}
    (since : taken = { s.conn with readBuffer := taken.readBuffer, state := taken.state })
    (filled : taken.readBuffer.Wf) {env : Env} {ctx : HttpContext} {rest : Buffer}
    (parsed : taken.parsed = (.complete, ctx, rest)) (isHead : ctx.request.method = lit "HEAD") :
    (taken.process env).1 = .complete ∧
      (HeadOnly env taken (taken.process env).2.1 ↔
        PathUtil.safePath env.fs taken.resourceDir ctx.request.path ≠ [] ∧
          FileUtil.fileSize env.fs
            (taken.resourceDir ++ servedPath env taken.resourceDir ctx.request) ≤ maxFileSize) := by
  obtain ⟨hwf, htyped⟩ := typed_run fresh run
  have hwrite : taken.writeBuffer.Wf := by
    rw [since]
    exact hwf.write
  have hcontext : taken.context.Typed := by
    rw [since]
    exact htyped
  have hparsed := HttpContext.parseRequest_typed hcontext filled
  have hctx : ctx.Typed := by
    rw [show taken.context.parseRequest taken.readBuffer = _ from parsed] at hparsed
    exact hparsed
  have hunrouted := unrouted_head hctx isHead taken.router
  rw [process_complete parsed]
  refine ⟨rfl, ?_⟩
  exact headOnly_reply_iff (c := { taken with context := ctx, readBuffer := rest }) hwrite
    hunrouted isHead taken.response

/-- The head of a file of five bytes. -/
theorem process_head_file :
    let env := Env.table
      [⟨lit "/w", lit "/w", none⟩, ⟨lit "/w/a.txt", lit "/w/a.txt", some (lit "hello")⟩]
    let c := { enableReadEvent (new 5 (lit "/w") (some {})) with
      readBuffer := (Buffer.new 1024).append (lit "HEAD /a.txt HTTP/1.1\r\n\r\n")
      state := .processing }
    (c.process env).1 = .complete ∧ HeadOnly env c (c.process env).2.1 := by
  intro env c
  have hcomplete : c.parsed.1 = .complete := by decide +kernel
  have isHead : c.parsed.2.1.request.method = lit "HEAD" := by decide +kernel
  have hfresh := fresh_new 5 (lit "/w") (some {})
  have hfilled : c.readBuffer.Wf := Buffer.append_wf (Buffer.new_wf 1024) _
  obtain ⟨hresult, hiff⟩ := @process_head_iff _ hfresh [] _ rfl c rfl hfilled env _ _
    (parsed_eq hcomplete) isHead
  exact ⟨hresult, hiff.mpr (by decide +kernel)⟩

end Sys

namespace Connection

/-- A path that does not exist is refused with thirteen bytes behind the blank line. -/
theorem process_head_refused :
    let env := Env.table [⟨lit "/w", lit "/w", none⟩]
    let c := receiving (lit "/w") none (lit "HEAD /b HTTP/1.1\r\n\r\n")
    c.Ready ∧ (c.process env).1 = .complete ∧
      (c.process env).2.1.context.request.method = lit "HEAD" ∧
      (c.process env).2.1.writeBuffer.peekReadable =
        c.writeBuffer.peekReadable ++
          ((c.process env).2.1.response.head env.order ++ lit "403 Forbidden") ∧
      ¬HeadOnly env c (c.process env).2.1 := by
  intro env c
  have hwritten : (c.process env).2.1.writeBuffer.peekReadable = c.writeBuffer.peekReadable ++
      ((c.process env).2.1.response.head env.order ++ lit "403 Forbidden") := by decide +kernel
  refine ⟨ready_receiving _ _ _, by decide +kernel, by decide +kernel, hwritten, ?_⟩
  rintro ⟨hsame, -⟩
  rw [hwritten] at hsame
  have hhead := List.append_cancel_left hsame
  have hnone : lit "403 Forbidden" = [] := by simpa using hhead
  exact absurd hnone (by decide)

end Connection

end WebServer
