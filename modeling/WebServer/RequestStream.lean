import WebServer.ParserChunking

/-!
# Streams of whole requests

A whole request is any byte string that `ParseRequest` takes to the last byte. Several
of them one after another are read one by one: the parser, started afresh on a part of
such a stream, answers at the end of the first request or waits, and it never refuses.
-/

namespace WebServer

open Resumable HttpContext

structure WholeRequest where
  bytes : Str
  context : HttpContext
  complete : (HttpContext.reset.parseRequest ((Buffer.new 1024).append bytes)).1 = .complete
  parses : (HttpContext.reset.parseRequest ((Buffer.new 1024).append bytes)).2.1 = context
  whole : (HttpContext.reset.parseRequest ((Buffer.new 1024).append bytes)).2.2.peekReadable = []

namespace WholeRequest

theorem drives (r : WholeRequest) : Drives move .reset r.bytes (some true) r.context [] := by
  have hwf : ((Buffer.new 1024).append r.bytes).Wf := Buffer.append_wf (Buffer.new_wf 1024) _
  have hdrives := (parseRequest_drives .reset hwf).2
  rw [r.complete, r.parses, r.whole, Buffer.append_peekReadable (Buffer.new_wf 1024),
    Buffer.new_peekReadable] at hdrives
  exact hdrives

end WholeRequest

/-- What the requests put on the wire. -/
def wire (requests : List WholeRequest) : Str := requests.flatMap (·.bytes)

/-- An answer of the parser inside a stream of requests is the end of the first one. -/
theorem head_request {todo : List WholeRequest} {input rest : Str} {accepted : Bool}
    {ctx : HttpContext} (h : Drives move .reset input (some accepted) ctx rest)
    (within : input <+: wire todo) :
    ∃ r later, todo = r :: later ∧ accepted = true ∧ ctx = r.context ∧ input = r.bytes ++ rest := by
  obtain ⟨more, hmore⟩ := within
  cases todo with
  | nil =>
    obtain ⟨rfl, -⟩ := List.append_eq_nil_iff.mp hmore
    have hwait : Drives move .reset ([] : Str) none .reset [] := .wait rfl
    cases (drives_unique hwait h).1
  | cons r later =>
    have hwhole := drives_extend move_stable r.drives (wire later)
    have hextended := drives_extend move_stable h more
    have hsame : input ++ more = r.bytes ++ wire later := hmore
    rw [hsame] at hextended
    obtain ⟨haccepted, hctx, hrest⟩ := drives_unique hextended hwhole
    refine ⟨r, later, rfl, Option.some.inj haccepted, hctx, ?_⟩
    have hjoined : input ++ more = (r.bytes ++ rest) ++ more := by
      rw [hsame, List.append_assoc, hrest, List.nil_append]
    exact List.append_cancel_right hjoined

/-- The parser does not wait at the end of a stream with a request in it. -/
theorem waits_only_end {todo : List WholeRequest} {ctx : HttpContext} {rest : Str}
    (h : Drives move .reset (wire todo) none ctx rest) : todo = [] := by
  cases todo with
  | nil => rfl
  | cons r later =>
    have hwhole := drives_extend move_stable r.drives (wire later)
    cases (drives_unique h hwhole).1

end WebServer
