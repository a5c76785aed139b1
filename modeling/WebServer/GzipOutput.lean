import WebServer.StaticFiles

/-!
# The output of gzip compression

`Compress` lets zlib write into a string that it has sized beforehand, and when the room
does not suffice once more behind what is there. Here the string, the write pointer and
the counters of `z_stream` are explicit; `GzipUtil.compress`, which the replies use, only
joins what the two calls wrote.

About zlib it is assumed that `deflate(Z_FINISH)` hands out one fixed stream in the pieces
that it is given room for. The stream may be as long as `deflateBound` says.
-/

namespace WebServer

/-- `std::string::resize` -/
def resize (s : Str) (n : Nat) : Str := s.take n ++ List.replicate (n - s.length) 0

/-- The string after bytes are written from a position on. -/
def overwrite (s : Str) (pos : Nat) (bytes : Str) : Str :=
  s.take pos ++ bytes ++ s.drop (pos + bytes.length)

/-- A cast to the 32 bits of `uInt`. -/
def toUInt (n : Nat) : Nat := n % 2 ^ 32

/-- The output half of `z_stream`; `nextOut` is an offset into `out`. -/
structure ZStream (z : Zlib) where
  state : z.State
  nextOut : Nat
  availOut : Nat
  totalOut : Nat

namespace GzipUtil

/-- `deflate(&zs, Z_FINISH)` with what it does to the string behind `next_out`. -/
def deflateInto (z : Zlib) (zs : ZStream z) (out : Str) : ZRet × Str × ZStream z :=
  let (ret, bytes, state) := z.deflate zs.state zs.availOut
  (ret, overwrite out zs.nextOut bytes,
    { state
      nextOut := zs.nextOut + bytes.length
      availOut := zs.availOut - bytes.length
      totalOut := zs.totalOut + bytes.length })

/-- `Compress`; `avail_in` and `avail_out` are cast to 32 bits. -/
def compressInto (z : Zlib) (body out : Str) : Bool × Str :=
  match z.deflateInit2 (body.take (toUInt body.length)) with
  | none => (false, out)
  | some state =>
    let outSize := body.length
    let out := resize out outSize
    let zs : ZStream z := { state, nextOut := 0, availOut := toUInt outSize, totalOut := 0 }
    let (ret, out, zs) := deflateInto z zs out
    if ret = .streamEnd then (true, resize out zs.totalOut)
    else if ret = .ok ∨ ret = .bufError then
      let outSize := zs.totalOut + body.length / 2 + 128
      let out := resize out outSize
      let zs := { zs with nextOut := zs.totalOut, availOut := toUInt (outSize - zs.totalOut) }
      let (ret, out, zs) := deflateInto z zs out
      if ret = .streamEnd then (true, resize out zs.totalOut) else (false, out)
    else (false, out)

end GzipUtil

/-! ## Writing in place -/

/-- A longer string keeps what it begins with. -/
theorem resize_append (s rest : Str) (n : Nat) (h : s.length ≤ n) :
    ∃ more, resize (s ++ rest) n = s ++ more := by
  refine ⟨rest.take (n - s.length) ++ List.replicate (n - (s ++ rest).length) 0, ?_⟩
  rw [resize, List.take_append, List.take_of_length_le h, List.append_assoc]

theorem resize_exact (s rest : Str) : resize (s ++ rest) s.length = s := by
  have hnone : s.length - (s ++ rest).length = 0 := by
    rw [List.length_append]
    omega
  rw [resize, List.take_left, hnone, List.replicate_zero, List.append_nil]

/-- Bytes written right behind what is there follow it. -/
theorem overwrite_append (s rest bytes : Str) :
    ∃ more, overwrite (s ++ rest) s.length bytes = s ++ bytes ++ more := by
  refine ⟨(s ++ rest).drop (s.length + bytes.length), ?_⟩
  rw [overwrite, List.take_left]

theorem toUInt_of_lt {n : Nat} (h : n < 2 ^ 32) : toUInt n = n := Nat.mod_eq_of_lt h

/-! ## The two models -/

namespace GzipUtil

/-- The string ends up with what the two calls wrote, one behind the other and no more. -/
theorem compressInto_eq (z : Zlib) {body : Str} (small : body.length < 2 ^ 32) (out : Str) :
    (compressInto z body out).1 = (compress z body).isSome ∧
      ∀ written, compress z body = some written → (compressInto z body out).2 = written := by
  have hinput : body.take (toUInt body.length) = body := by
    rw [toUInt_of_lt small, List.take_length]
  unfold compressInto compress
  rw [hinput]
  cases z.deflateInit2 body with
  | none => exact ⟨rfl, fun _ h => nomatch h⟩
  | some state =>
    rcases hcall : z.deflate state body.length with ⟨ret, bytes, state'⟩
    -- The first call writes at the front.
    obtain ⟨more, hwritten⟩ := overwrite_append [] (resize out body.length) bytes
    simp only [List.nil_append, List.length_nil] at hwritten
    simp only [deflateInto, toUInt_of_lt small, hcall, hwritten, Nat.zero_add]
    by_cases hend : ret = .streamEnd
    · simp only [if_pos hend, resize_exact]
      exact ⟨rfl, fun _ h => Option.some.inj h⟩
    · by_cases hretry : ret = .ok ∨ ret = .bufError
      · have hroom : bytes.length + body.length / 2 + 128 - bytes.length =
            body.length / 2 + 128 := by omega
        have hcast : toUInt (body.length / 2 + 128) = body.length / 2 + 128 :=
          toUInt_of_lt (by omega)
        obtain ⟨rest, hresized⟩ := resize_append bytes more (bytes.length + body.length / 2 + 128)
          (by omega)
        rcases hagain : z.deflate state' (body.length / 2 + 128) with ⟨ret', bytes', state''⟩
        -- The second call writes where the first one stopped.
        obtain ⟨behind, hjoined⟩ := overwrite_append bytes rest bytes'
        simp only [if_neg hend, if_pos hretry, hroom, hcast, hagain, hresized, hjoined,
          ← List.length_append, resize_exact]
        by_cases hlast : ret' = .streamEnd
        · simp only [if_pos hlast]
          exact ⟨rfl, fun _ h => Option.some.inj h⟩
        · simp only [if_neg hlast]
          exact ⟨rfl, fun _ h => nomatch h⟩
      · simp only [if_neg hend, if_neg hretry]
        exact ⟨rfl, fun _ h => nomatch h⟩

end GzipUtil

/-! ## A fixed stream -/

/-- `deflateBound` -/
def deflateBound (n : Nat) : Nat := n + (n >>> 12) + (n >>> 14) + (n >>> 25) + 25

/-- For this input zlib hands out this stream: a state has some rest of it still to write,
a call writes as much of the rest as there is room for, and it answers `Z_STREAM_END`
exactly when that was all. -/
structure Emits (z : Zlib) (input stream : Str) where
  owes : z.State → Str → Prop
  init : ∃ state, z.deflateInit2 input = some state ∧ owes state stream
  writes : ∀ state rest avail, owes state rest →
    (z.deflate state avail).2.1 = rest.take avail ∧
      owes (z.deflate state avail).2.2 (rest.drop avail)
  ends : ∀ state rest avail, owes state rest →
    if rest.length ≤ avail then (z.deflate state avail).1 = .streamEnd
    else (z.deflate state avail).1 = .ok ∨ (z.deflate state avail).1 = .bufError
  bounded : stream.length ≤ deflateBound input.length

namespace GzipUtil

/-- The room of the two calls together is more than the stream may need. -/
theorem deflateBound_le (n : Nat) : deflateBound n ≤ n + (n / 2 + 128) := by
  simp only [deflateBound, Nat.shiftRight_eq_div_pow]
  omega

theorem compress_of_emits {z : Zlib} {body stream : Str} (emits : Emits z body stream) :
    compress z body = some stream := by
  obtain ⟨state, hinit, howes⟩ := emits.init
  obtain ⟨hbytes, howes'⟩ := emits.writes state stream body.length howes
  have hret := emits.ends state stream body.length howes
  have hbound := emits.bounded
  have hroom := deflateBound_le body.length
  unfold compress
  rw [hinit]
  rcases hcall : z.deflate state body.length with ⟨ret, bytes, state'⟩
  rw [hcall] at hbytes howes' hret
  simp only at hbytes howes' hret
  by_cases hfits : stream.length ≤ body.length
  · rw [if_pos hfits] at hret
    have hall : bytes = stream := hbytes.trans (List.take_of_length_le hfits)
    simp only [hcall, if_pos hret, hall]
  · rw [if_neg hfits] at hret
    have hmore : ret ≠ .streamEnd := by
      rintro rfl
      rcases hret with h | h
      · cases h
      · cases h
    have hlength : bytes.length + body.length / 2 + 128 - bytes.length =
        body.length / 2 + 128 := by omega
    -- What the first call left fits the second one.
    have hrest : (stream.drop body.length).length ≤ body.length / 2 + 128 := by
      rw [List.length_drop]
      omega
    obtain ⟨hbytes', -⟩ := emits.writes state' _ (body.length / 2 + 128) howes'
    have hret' := emits.ends state' _ (body.length / 2 + 128) howes'
    rw [if_pos hrest] at hret'
    rw [List.take_of_length_le hrest] at hbytes'
    simp only [hcall, if_neg hmore, if_pos hret, hlength, if_pos hret', hbytes']
    rw [hbytes, List.take_append_drop]

/-- `Compress` succeeds, and `out` is the stream and nothing else, whatever it held before.
The replies get the same. -/
theorem compressInto_stream {z : Zlib} {body stream : Str} (out : Str)
    (small : body.length ≤ 10 * 1024 * 1024) (emits : Emits z body stream) :
    compressInto z body out = (true, stream) ∧ compress z body = some stream := by
  have hcompress := compress_of_emits emits
  obtain ⟨hreturned, hwritten⟩ := compressInto_eq z (show body.length < 2 ^ 32 by omega) out
  rw [hcompress] at hreturned
  exact ⟨Prod.ext hreturned (hwritten stream hcompress), hcompress⟩

/-- What zlib makes of the text `a`: twenty-one bytes, of which one fits the first call. -/
def gzipA : Str :=
  [31, 139, 8, 0, 0, 0, 0, 0, 0, 3, 75, 4, 0, 67, 190, 183, 232, 1, 0, 0, 0]

/-- A zlib that hands out one stream. -/
def streaming (stream : Str) : Zlib where
  State := Str
  deflateInit2 _ := some stream
  deflate rest avail :=
    (if rest.length ≤ avail then .streamEnd else .ok, rest.take avail, rest.drop avail)

def emitsStreaming (stream input : Str) (bounded : stream.length ≤ deflateBound input.length) :
    Emits (streaming stream) input stream where
  owes state rest := state = rest
  init := ⟨stream, rfl, rfl⟩
  writes := by
    rintro state rest avail rfl
    exact ⟨rfl, rfl⟩
  ends := by
    rintro state rest avail rfl
    by_cases hfits : state.length ≤ avail
    · rw [if_pos hfits]
      exact if_pos hfits
    · rw [if_neg hfits]
      exact .inl (if_neg hfits)
  bounded := bounded

theorem compressInto_stream_a :
    compressInto (streaming gzipA) (lit "a") [] = (true, gzipA) ∧
      compress (streaming gzipA) (lit "a") = some gzipA :=
  compressInto_stream [] (by decide) (emitsStreaming gzipA (lit "a") (by decide))

end GzipUtil

end WebServer
