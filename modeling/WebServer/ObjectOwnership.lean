import WebServer.DescriptorOwnership

/-!
# Where a connection object is

Ownership of an object goes from the accept to the references of its connection, from the
deleter to the pool of a loop, and from the pool to the next accept; or a full pool deletes
it. Each object is in one of these places, an accept and the deleter move it, and nothing
else does. A connection is live as long as something in a loop refers to it, and its socket
is closed when the last reference goes.
-/

namespace WebServer

open KeyedList Connection

/-- The places of a connection object. -/
inductive Place where
  | pooled (loop : Nat)
  | owned (who : Nat)
  | deleted
  deriving DecidableEq

/-- The loop that an accept gives its connection to. -/
def ServerAct.acceptLoop : ServerAct → Option Nat
  | .accept loop _ => some loop
  | _ => none

/-- The loops of the accepts of a run, in their order. -/
def acceptLoops (acts : List ServerAct) : List Nat := acts.filterMap (·.acceptLoop)

def ServerEffect.closes (who : Nat) : ServerEffect → Bool
  | .closed k _ => k = who
  | _ => false

namespace Server

def At (s : Server) (object : Nat) : Place → Prop
  | .pooled l => ∃ o ∈ (s.loops l).pool.objects, o.object = object
  | .owned who => ∃ m, s.live.find who = some m ∧ m.object = object
  | .deleted => .deleted object ∈ s.log

/-- How often and with which descriptor the socket of a connection was closed. -/
def closings (s : Server) (who : Nat) : List ServerEffect := s.log.filter (·.closes who)

/-! ## What a step does to objects -/

/-- A property that every move of an object keeps, and that depends on nothing else, is kept
by every step that accepts no connection. -/
theorem step_keeps (P : Server → Prop)
    (changed : ∀ s l loop, loop.pool = (s.loops l).pool → P s → P (s.setLoop l loop))
    (replaced : ∀ s who m conn, s.live.find who = some m → conn.fd = m.conn.fd → P s →
      P { s with live := s.live.insert who { m with conn } })
    (erased : ∀ s l fd whom removed, P s → P (s.record (.erased l fd whom removed)))
    (released : ∀ s who m, s.live.find who = some m → P s → P (s.release who m))
    {s t : Server} {a : ServerAct} (h : P s) (hc : s.Consistent) (hstep : s.step a = some t) :
    a.acceptLoop = none ∧ P t ∨
      ∃ l fd, a = .accept l fd ∧ s.isOpen fd = false ∧ t = s.handleListenEvent l fd := by
  have hdrop : ∀ s who, P s → P (s.drop who) := by
    intro s who h
    have hend := drop_end s who
    generalize s.drop who = t at hend ⊢
    cases hend with
    | kept => exact h
    | released m hfind => exact released s who m hfind h
  have hperform : ∀ s : Server, P s → ∀ who m out, s.live.find who = some m →
      Stays m.conn out → P (s.perform who m out) := by
    intro s h who m out hfind hstays
    exact changed _ _ _ rfl (replaced s who m out.1 hfind hstays.fd h)
  cases taken_of_step hstep with
  | accept l fd _ hclosed => exact Or.inr ⟨l, fd, rfl, hclosed, rfl⟩
  | readable who m env arrival hfind =>
    exact Or.inl ⟨rfl, hperform s h _ _ _ hfind
      (stays_handleRead (hc.buffers who m hfind) env arrival)⟩
  | writable who m sends files hfind =>
    exact Or.inl ⟨rfl, hperform s h _ _ _ hfind
      (stays_handleWrite (hc.buffers who m hfind) sends files)⟩
  | hangup who m hfind =>
    exact Or.inl ⟨rfl, hperform s h _ _ _ hfind ⟨rfl, by simp [handleClose]⟩⟩
  | expire l fd who hfind => exact Or.inl ⟨rfl, changed s l _ rfl h⟩
  | swap l => exact Or.inl ⟨rfl, changed s l _ rfl h⟩
  | run l env sends f rest hbatch =>
    refine Or.inl ⟨rfl, ?_⟩
    have htake : P (s.take l f rest) := changed s l _ rfl h
    cases f with
    | call who cb =>
      refine call_keeps P htake l who cb env sends ?_
      intro m hfind
      exact hperform _ htake _ _ _ hfind (stays_call (hc.buffers who m hfind) cb env sends)
    | timeout fd who => exact changed _ l _ rfl htake
    | erase fd who =>
      generalize s.take l (.erase fd who) rest = u at htake ⊢
      have hforgot : P (u.setLoop l { u.loops l with
          connections := (u.loops l).connections.erase fd }) := changed u l _ rfl htake
      exact elim_drop_keeps P hdrop (erased _ l fd who _ hforgot) _
  | destroy l =>
    have hforgot : P (s.setLoop l { s.loops l with ran := [] }) := changed s l _ rfl h
    exact Or.inl ⟨rfl, drops_keep P hdrop hforgot _⟩

/-! ## Each object in one place -/

/-- The places of the objects, with the loops of the accepts so far and the loop that each
object belongs to. -/
structure Placed (s : Server) (homes : List Nat) (place : Nat → Place) (belongs : Nat → Nat) :
    Prop where
  at_iff : ∀ object p, s.At object p ↔ object < s.objects ∧ place object = p
  once : ∀ l, ((s.loops l).pool.objects.map (·.object)).Nodup
  numbered : homes.length = s.accepts
  owned : ∀ who m, s.live.find who = some m → homes[who]? = some m.home ∧
    belongs m.object = m.home ∧ s.closings who = [] ∧
    ∀ object fd, .accepted who object fd ∈ s.log ↔ object = m.object ∧ fd = m.conn.fd
  pooled : ∀ l object, s.At object (.pooled l) → belongs object = l
  accepted : ∀ who object fd, .accepted who object fd ∈ s.log → who < s.accepts ∧
    object < s.objects ∧ homes[who]? = some (belongs object) ∧
    (s.live.find who = none → s.closings who = [.closed who fd])
  unborn : ∀ who fd, .closed who fd ∈ s.log → who < s.accepts

section Moves

variable {s t : Server} {homes : List Nat} {place : Nat → Place} {belongs : Nat → Nat}

/-- Nothing that the places depend on has changed. -/
theorem placed_same (h : Placed s homes place belongs)
    (pools : ∀ l, (t.loops l).pool = (s.loops l).pool)
    (live : ∀ who, (t.live.find who).map (fun m => (m.object, m.home, m.conn.fd)) =
      (s.live.find who).map (fun m => (m.object, m.home, m.conn.fd)))
    (objects : t.objects = s.objects) (accepts : t.accepts = s.accepts)
    (deleted : ∀ object, .deleted object ∈ t.log ↔ .deleted object ∈ s.log)
    (accepted : ∀ who object fd, .accepted who object fd ∈ t.log ↔
      .accepted who object fd ∈ s.log)
    (closings : ∀ who, t.closings who = s.closings who) : Placed t homes place belongs := by
  have hback : ∀ who m, t.live.find who = some m → ∃ m', s.live.find who = some m' ∧
      m'.object = m.object ∧ m'.home = m.home ∧ m'.conn.fd = m.conn.fd := by
    intro who m hm
    have hsame := live who
    rw [hm, Option.map_some] at hsame
    obtain ⟨m', hm', hparts⟩ := Option.map_eq_some_iff.mp hsame.symm
    obtain ⟨hobject, hrest⟩ := Prod.mk.inj hparts
    obtain ⟨hhome, hfd⟩ := Prod.mk.inj hrest
    exact ⟨m', hm', hobject, hhome, hfd⟩
  have hat : ∀ object p, t.At object p ↔ s.At object p := by
    intro object p
    cases p with
    | pooled l => simp only [At, pools]
    | deleted => exact deleted object
    | owned who =>
      have hmap : ∀ d : Dict Nat Shared, (∃ m, d.find who = some m ∧ m.object = object) ↔
          ((d.find who).map (fun m => (m.object, m.home, m.conn.fd))).map (·.1) = some object := by
        intro d
        cases d.find who <;> simp
      exact (hmap t.live).trans ((live who) ▸ (hmap s.live).symm)
  constructor
  · intro object p
    rw [hat, objects]
    exact h.at_iff object p
  · intro l
    rw [pools]
    exact h.once l
  · exact h.numbered.trans accepts.symm
  · intro who m hm
    obtain ⟨m', hm', hobject, hhome, hfd⟩ := hback who m hm
    obtain ⟨hloop, hbelongs, hclosings, hfds⟩ := h.owned who m' hm'
    refine ⟨hhome ▸ hloop, hobject ▸ hhome ▸ hbelongs, (closings who).trans hclosings, ?_⟩
    intro object fd
    rw [accepted, hfds, hobject, hfd]
  · intro l object hpooled
    exact h.pooled l object ((hat object (.pooled l)).mp hpooled)
  · intro who object fd hmem
    obtain ⟨hlt, hobject, hloop, hclosed⟩ :=
      h.accepted who object fd ((accepted who object fd).mp hmem)
    refine ⟨accepts ▸ hlt, objects ▸ hobject, hloop, ?_⟩
    intro hnone
    have hsame := live who
    rw [hnone, Option.map_none] at hsame
    exact (closings who).trans (hclosed (Option.map_eq_none_iff.mp hsame.symm))
  · intro who fd hmem
    have hclosing : .closed who fd ∈ s.closings who :=
      closings who ▸ List.mem_filter.mpr ⟨hmem, decide_eq_true rfl⟩
    exact accepts ▸ h.unborn who fd (List.mem_filter.mp hclosing).1

theorem placed_setLoop (h : Placed s homes place belongs) (l : Nat) (loop : EventLoop)
    (pool : loop.pool = (s.loops l).pool) : Placed (s.setLoop l loop) homes place belongs := by
  refine placed_same h ?_ (fun _ => rfl) rfl rfl (fun _ => Iff.rfl) (fun _ _ _ => Iff.rfl)
    (fun _ => rfl)
  intro k
  rcases loops_setLoop s l k loop with ⟨rfl, hk⟩ | hk
  · rw [hk, pool]
  · rw [hk]

theorem placed_replace (h : Placed s homes place belongs) {who : Nat} {m : Shared}
    (found : s.live.find who = some m) {conn : Connection} (fd : conn.fd = m.conn.fd) :
    Placed { s with live := s.live.insert who { m with conn } } homes place belongs := by
  refine placed_same h (fun _ => rfl) ?_ rfl rfl (fun _ => Iff.rfl) (fun _ _ _ => Iff.rfl)
    (fun _ => rfl)
  intro k
  by_cases hwho : k = who
  · subst hwho
    rw [Dict.find_insert_self, found]
    simp [fd]
  · rw [Dict.find_insert_ne _ hwho]

theorem placed_erased (h : Placed s homes place belongs) (l : Nat) (fd : Int) (whom : Nat)
    (removed : Option Nat) : Placed (s.record (.erased l fd whom removed)) homes place belongs := by
  refine placed_same h (fun _ => rfl) (fun _ => rfl) rfl rfl ?_ ?_ ?_
  · intro object
    simp [record]
  · intro who object fd'
    simp [record]
  · intro who
    simp [closings, record, ServerEffect.closes]

/-- One object moves, which may be a new one; the others stay where they are. -/
theorem at_moved {object₀ : Nat} {target : Place}
    (h : ∀ object p, s.At object p ↔ object < s.objects ∧ place object = p)
    (moved : ∀ p, t.At object₀ p ↔ target = p)
    (others : ∀ object, object ≠ object₀ → ∀ p, t.At object p ↔ s.At object p)
    (objects : ∀ object, object < t.objects ↔ object = object₀ ∨ object < s.objects)
    (object : Nat) (p : Place) :
    t.At object p ↔ object < t.objects ∧ Function.update place object₀ target object = p := by
  by_cases hobject : object = object₀
  · subst hobject
    rw [moved, objects, Function.update_self]
    simp
  · rw [others object hobject, h, objects, Function.update_of_ne hobject]
    simp [hobject]

theorem pool_release (s : Server) (who : Nat) (m : Shared) (k : Nat) :
    ((s.release who m).loops k).pool =
      if k = m.home then (s.loops k).pool.giveBack ⟨m.object, m.conn.close.1⟩
      else (s.loops k).pool := by
  simp only [release, loops_record]
  by_cases hk : k = m.home
  · rw [if_pos hk, hk, loops_setLoop_self]
  · rw [if_neg hk, loops_setLoop_ne _ hk]

theorem objects_giveBack (p : ObjectPool) (o : Pooled) :
    (p.giveBack o).objects =
      if p.objects.length < ObjectPool.maxSize then p.objects ++ [o] else p.objects := by
  unfold ObjectPool.giveBack
  split <;> rfl

/-- The deleter has room for the object, or none. -/
theorem at_release {who : Nat} {m : Shared} (found : s.live.find who = some m) (object : Nat) :
    (∀ l, (s.release who m).At object (.pooled l) ↔ s.At object (.pooled l) ∨
      (l = m.home ∧ (s.loops l).pool.objects.length < ObjectPool.maxSize ∧ object = m.object)) ∧
    (∀ k, (s.release who m).At object (.owned k) ↔ k ≠ who ∧ s.At object (.owned k)) ∧
    ((s.release who m).At object .deleted ↔ s.At object .deleted ∨
      (¬(s.loops m.home).pool.objects.length < ObjectPool.maxSize ∧ object = m.object)) := by
  refine ⟨?_, ?_, ?_⟩
  · intro l
    simp only [At, pool_release]
    by_cases hl : l = m.home
    · rw [if_pos hl, objects_giveBack]
      by_cases hroom : (s.loops l).pool.objects.length < ObjectPool.maxSize
      · rw [if_pos hroom]
        simp [hl, hl ▸ hroom, or_and_right, exists_or, eq_comm]
      · rw [if_neg hroom]
        simp [hroom]
    · rw [if_neg hl]
      simp [hl]
  · intro k
    have hfind : ∀ n, (s.live.erase who).find k = some n ↔ k ≠ who ∧ s.live.find k = some n := by
      intro n
      by_cases hk : k = who
      · subst hk
        simp
      · rw [Dict.find_erase_ne _ hk]
        simp [hk]
    constructor
    · rintro ⟨n, hn, hobject⟩
      obtain ⟨hk, hlive⟩ := (hfind n).mp hn
      exact ⟨hk, n, hlive, hobject⟩
    · rintro ⟨hk, n, hlive, hobject⟩
      exact ⟨n, (hfind n).mpr ⟨hk, hlive⟩, hobject⟩
  · simp only [At, release, record, setLoop, List.mem_append, List.mem_singleton, reduceCtorEq, or_false]
    split <;> rename_i hroom <;> simp [hroom]

theorem log_release (s : Server) (who : Nat) (m : Shared) :
    ∃ e, (s.release who m).log = s.log ++ [.closed who m.conn.fd, e] ∧
      (e = .pooled m.object ∨ e = .deleted m.object) := by
  refine ⟨_, List.append_assoc _ _ _, ?_⟩
  split
  · exact Or.inl rfl
  · exact Or.inr rfl

/-- Where the deleter puts the object. -/
def releasedTo (s : Server) (m : Shared) : Place :=
  if (s.loops m.home).pool.objects.length < ObjectPool.maxSize then .pooled m.home else .deleted

/-- The object of the connection was its own, and is afterwards where the deleter puts it. -/
theorem at_released (h : Placed s homes place belongs) {who : Nat} {m : Shared}
    (found : s.live.find who = some m) (p : Place) :
    (s.release who m).At m.object p ↔ releasedTo s m = p := by
  have hplace := ((h.at_iff m.object (.owned who)).mp ⟨m, found, rfl⟩).2
  have hnot : ∀ q, q ≠ .owned who → ¬s.At m.object q := by
    intro q hq hat
    exact hq (((h.at_iff m.object q).mp hat).2.symm.trans hplace)
  obtain ⟨hpooled, howned, hdeleted⟩ := at_release found m.object
  cases p with
  | pooled l =>
    rw [hpooled]
    by_cases hroom : (s.loops m.home).pool.objects.length < ObjectPool.maxSize
    · simp only [releasedTo, if_pos hroom, Place.pooled.injEq]
      constructor
      · rintro (hat | ⟨rfl, -, -⟩)
        · exact absurd hat (hnot _ (by simp))
        · rfl
      · rintro rfl
        exact Or.inr ⟨rfl, hroom, trivial⟩
    · simp only [releasedTo, if_neg hroom, reduceCtorEq, iff_false, not_or]
      refine ⟨hnot _ (by simp), ?_⟩
      rintro ⟨rfl, hroom', -⟩
      exact hroom hroom'
  | owned k =>
    rw [howned]
    have htarget : releasedTo s m ≠ .owned k := by
      unfold releasedTo
      split <;> simp
    simp only [htarget, iff_false, not_and]
    intro hk
    exact hnot _ (by simp [hk])
  | deleted =>
    rw [hdeleted]
    by_cases hroom : (s.loops m.home).pool.objects.length < ObjectPool.maxSize
    · simp only [releasedTo, if_pos hroom, reduceCtorEq, iff_false, not_or]
      exact ⟨hnot _ (by simp), fun h => h.1 hroom⟩
    · simp [releasedTo, hroom]

/-- The other objects stay where they are. -/
theorem at_unreleased {who : Nat} {m : Shared} (found : s.live.find who = some m) {object : Nat}
    (hobject : object ≠ m.object) (p : Place) :
    (s.release who m).At object p ↔ s.At object p := by
  obtain ⟨hpooled, howned, hdeleted⟩ := at_release found object
  cases p with
  | pooled l => simp [hpooled, hobject]
  | owned k =>
    rw [howned]
    refine and_iff_right_of_imp ?_
    rintro ⟨n, hn, rfl⟩ rfl
    exact hobject (congrArg Shared.object (Option.some.inj (hn.symm.trans found)))
  | deleted => simp [hdeleted, hobject]

theorem closings_release (s : Server) (who : Nat) (m : Shared) (k : Nat) :
    (s.release who m).closings k =
      s.closings k ++ if k = who then [.closed who m.conn.fd] else [] := by
  obtain ⟨e, hlog, he⟩ := log_release s who m
  rw [closings, hlog, List.filter_append]
  by_cases hk : k = who
  · rw [if_pos hk, hk]
    rcases he with rfl | rfl <;> simp [closings, ServerEffect.closes]
  · rw [if_neg hk]
    rcases he with rfl | rfl <;> simp [closings, ServerEffect.closes, Ne.symm hk]

/-- The last reference goes: the socket is closed, and the object is pooled or deleted. -/
theorem placed_release (h : Placed s homes place belongs) {who : Nat} {m : Shared}
    (found : s.live.find who = some m) :
    ∃ place', Placed (s.release who m) homes place' belongs := by
  obtain ⟨hloop, hbelongs, hclosings, hfds⟩ := h.owned who m found
  obtain ⟨hlt, hplace⟩ := (h.at_iff m.object (.owned who)).mp ⟨m, found, rfl⟩
  obtain ⟨e, hlog, he⟩ := log_release s who m
  have hwho : who < s.accepts := by
    rw [← h.numbered]
    exact (List.getElem?_eq_some_iff.mp hloop).1
  have hlive : ∀ k n, (s.release who m).live.find k = some n →
      k ≠ who ∧ s.live.find k = some n := by
    intro k n hk
    have hne : k ≠ who := by
      rintro rfl
      exact absurd (hk.symm.trans (Dict.find_erase_self s.live k)) (by simp)
    exact ⟨hne, Dict.find_of_erase hk⟩
  have haccepted : ∀ k object fd, .accepted k object fd ∈ (s.release who m).log ↔
      .accepted k object fd ∈ s.log := by
    intro k object fd
    rw [hlog]
    rcases he with rfl | rfl <;> simp
  refine ⟨Function.update place m.object (releasedTo s m), ?_⟩
  constructor
  case at_iff =>
    refine at_moved h.at_iff (at_released h found) (fun _ hne => at_unreleased found hne) ?_
    intro object
    refine (or_iff_right_of_imp ?_).symm
    rintro rfl
    exact hlt
  case once =>
    intro l
    rw [pool_release]
    by_cases hl : l = m.home
    · rw [if_pos hl, objects_giveBack]
      split
      · rw [List.map_append, List.nodup_append]
        refine ⟨h.once l, by simp, ?_⟩
        intro object hobject object' hobject' hsame
        obtain ⟨o, ho, rfl⟩ := List.mem_map.mp hobject
        obtain rfl : object' = m.object := List.mem_singleton.mp hobject'
        have hpooled := ((h.at_iff m.object (.pooled l)).mp ⟨o, ho, hsame⟩).2
        exact absurd (hpooled.symm.trans hplace) (by simp)
      · exact h.once l
    · rw [if_neg hl]
      exact h.once l
  case numbered => exact h.numbered
  case owned =>
    intro k n hk
    obtain ⟨hne, hold⟩ := hlive k n hk
    obtain ⟨hloop', hbelongs', hclosings', hfds'⟩ := h.owned k n hold
    refine ⟨hloop', hbelongs', ?_, fun object fd => (haccepted k object fd).trans (hfds' object fd)⟩
    rw [closings_release, hclosings', if_neg hne]
    rfl
  case pooled =>
    intro l object hat
    rcases ((at_release found object).1 l).mp hat with hold | ⟨rfl, -, rfl⟩
    · exact h.pooled l object hold
    · exact hbelongs
  case accepted =>
    intro k object fd hmem
    have hold := (haccepted k object fd).mp hmem
    obtain ⟨hlt', hobject, hloop', hclosed⟩ := h.accepted k object fd hold
    refine ⟨hlt', hobject, hloop', ?_⟩
    intro hnone
    rw [closings_release]
    by_cases hk : k = who
    · subst hk
      rw [hclosings, if_pos rfl, ((hfds object fd).mp hold).2]
      rfl
    · rw [if_neg hk, hclosed ((Dict.find_erase_ne _ hk).symm.trans hnone)]
      rfl
  case unborn =>
    intro k fd hmem
    rw [hlog] at hmem
    rcases List.mem_append.mp hmem with hold | hnew
    · exact h.unborn k fd hold
    · rcases he with rfl | rfl
      · obtain ⟨rfl, -⟩ : k = who ∧ fd = m.conn.fd := by simpa using hnew
        exact hwho
      · obtain ⟨rfl, -⟩ : k = who ∧ fd = m.conn.fd := by simpa using hnew
        exact hwho

/-- The object of an accept is the next of the pool, or a new one. -/
theorem acquire_cases (s : Server) (l : Nat) (fd : Int) :
    (s.acquire l fd).1.object = s.objects ∧ (s.acquire l fd).2.1 = s.objects + 1 ∧
        (s.acquire l fd).2.2 = (s.loops l).pool ∨
      ∃ o, (s.loops l).pool.objects = o :: (s.acquire l fd).2.2.objects ∧
        (s.acquire l fd).1.object = o.object ∧ (s.acquire l fd).2.1 = s.objects := by
  unfold acquire
  rcases hpool : (s.loops l).pool with ⟨objects, hbound⟩
  cases objects with
  | nil => exact Or.inl ⟨rfl, rfl, rfl⟩
  | cons o rest => exact Or.inr ⟨o, rfl, rfl, rfl⟩

end Moves

/-- The connection that is being accepted, with the object and the pool it takes it from. -/
def accepting (s : Server) (l : Nat) (fd : Int) : Server :=
  s.enroll l fd (s.acquire l fd).1 (s.acquire l fd).2.1 (s.acquire l fd).2.2

theorem pool_accepting (s : Server) (l : Nat) (fd : Int) (k : Nat) :
    ((s.accepting l fd).loops k).pool =
      if k = l then (s.acquire l fd).2.2 else (s.loops k).pool := by
  simp only [accepting, enroll, loops_record]
  by_cases hk : k = l
  · rw [if_pos hk, hk, loops_setLoop_self]
  · rw [if_neg hk, loops_setLoop_ne _ hk]

theorem log_accepting (s : Server) (l : Nat) (fd : Int) : (s.accepting l fd).log =
    s.log ++ [.accepted s.accepts (s.acquire l fd).1.object fd] := rfl

section Accept

variable {s : Server} {homes : List Nat} {place : Nat → Place} {belongs : Nat → Nat}

/-- Where the other objects are, and the object of the new connection. -/
theorem at_accepting (fresh : s.live.find s.accepts = none) (l : Nat) (fd : Int)
    (object : Nat) (p : Place) : (s.accepting l fd).At object p ↔
      match p with
      | .pooled k => ∃ o ∈ (if k = l then (s.acquire l fd).2.2 else (s.loops k).pool).objects,
          o.object = object
      | .owned k => k = s.accepts ∧ (s.acquire l fd).1.object = object ∨ s.At object (.owned k)
      | .deleted => s.At object .deleted := by
  cases p with
  | pooled k => simp only [At, pool_accepting]
  | deleted => simp [At, log_accepting]
  | owned k =>
    have hfind : ∀ n, (s.accepting l fd).live.find k = some n ↔
        k = s.accepts ∧ n = ⟨(s.acquire l fd).1.object, l,
          (s.acquire l fd).1.conn.enableReadEvent⟩ ∨ s.live.find k = some n := by
      intro n
      have hinsert : (s.accepting l fd).live.find k = if k = s.accepts then some
          ⟨(s.acquire l fd).1.object, l, (s.acquire l fd).1.conn.enableReadEvent⟩
          else s.live.find k := Dict.find_insert _ _ _ _
      rw [hinsert]
      by_cases hk : k = s.accepts
      · subst hk
        simp [fresh, eq_comm]
      · simp [hk]
    constructor
    · rintro ⟨n, hn, hobject⟩
      rcases (hfind n).mp hn with ⟨rfl, rfl⟩ | hold
      · exact Or.inl ⟨rfl, hobject⟩
      · exact Or.inr ⟨n, hold, hobject⟩
    · rintro (⟨rfl, hobject⟩ | ⟨n, hold, hobject⟩)
      · exact ⟨_, (hfind _).mpr (Or.inl ⟨rfl, rfl⟩), hobject⟩
      · exact ⟨n, (hfind n).mpr (Or.inr hold), hobject⟩

/-- The object of an accept was in the pool of the loop or nowhere, and leaves that pool. -/
theorem acquired_from (h : Placed s homes place belongs) (l : Nat) (fd : Int) :
    (∀ p, s.At (s.acquire l fd).1.object p → p = .pooled l) ∧
    (∀ object, (∃ o ∈ (s.acquire l fd).2.2.objects, o.object = object) ↔
      s.At object (.pooled l) ∧ object ≠ (s.acquire l fd).1.object) ∧
    (∀ object, object < (s.acquire l fd).2.1 ↔
      object = (s.acquire l fd).1.object ∨ object < s.objects) := by
  rcases acquire_cases s l fd with ⟨hobject, hobjects, hpool⟩ | ⟨o, hpool, hobject, hobjects⟩
  · rw [hobject, hobjects, hpool]
    refine ⟨?_, ?_, fun object => by omega⟩
    · intro p hat
      exact absurd ((h.at_iff _ p).mp hat).1 (Nat.lt_irrefl _)
    · intro object
      refine (and_iff_left_of_imp ?_).symm
      rintro ⟨o, ho, hsame⟩ rfl
      have hat : s.At s.objects (.pooled l) := ⟨o, ho, hsame⟩
      exact absurd ((h.at_iff _ _).mp hat).1 (Nat.lt_irrefl _)
  · have hat : s.At o.object (.pooled l) := ⟨o, by rw [hpool]; exact List.mem_cons_self, rfl⟩
    obtain ⟨hlt, hplace⟩ := (h.at_iff _ _).mp hat
    have honce := h.once l
    rw [hpool, List.map_cons, List.nodup_cons] at honce
    rw [hobject, hobjects]
    refine ⟨?_, ?_, ?_⟩
    · intro p hp
      exact ((h.at_iff _ p).mp hp).2.symm.trans hplace
    · intro object
      simp only [At, hpool, List.exists_mem_cons_iff]
      constructor
      · rintro ⟨o', ho', rfl⟩
        refine ⟨Or.inr ⟨o', ho', rfl⟩, ?_⟩
        intro hsame
        exact honce.1 (List.mem_map.mpr ⟨o', ho', hsame⟩)
      · rintro ⟨rfl | hrest, hne⟩
        · exact absurd rfl hne
        · exact hrest
    · intro object
      refine (or_iff_right_of_imp ?_).symm
      rintro rfl
      exact hlt

theorem fresh_accept (h : Placed s homes place belongs) : s.live.find s.accepts = none := by
  cases hfind : s.live.find s.accepts with
  | none => rfl
  | some m =>
    have hlt := (List.getElem?_eq_some_iff.mp (h.owned _ m hfind).1).1
    rw [h.numbered] at hlt
    exact absurd hlt (Nat.lt_irrefl _)

/-- The object of an accept is nowhere else afterwards. -/
theorem at_taken (h : Placed s homes place belongs) (l : Nat) (fd : Int) :
    (∀ p, (s.accepting l fd).At (s.acquire l fd).1.object p ↔ .owned s.accepts = p) ∧
    ∀ object, object ≠ (s.acquire l fd).1.object → ∀ p,
      (s.accepting l fd).At object p ↔ s.At object p := by
  obtain ⟨hsource, hpool, -⟩ := acquired_from h l fd
  have hat := at_accepting (fresh_accept h) l fd
  constructor
  · intro p
    rw [hat]
    cases p with
    | pooled k =>
      simp only [reduceCtorEq, iff_false]
      by_cases hk : k = l
      · rw [if_pos hk, hpool]
        exact fun h => h.2 rfl
      · rw [if_neg hk]
        intro hold
        exact hk (Place.pooled.inj (hsource (.pooled k) hold))
    | owned k =>
      have hnot : ¬s.At (s.acquire l fd).1.object (.owned k) := fun hold => by cases hsource _ hold
      simp [hnot, eq_comm]
    | deleted =>
      simp only [reduceCtorEq, iff_false]
      intro hold
      cases hsource _ hold
  · intro object hobject p
    rw [hat]
    cases p with
    | pooled k =>
      by_cases hk : k = l
      · subst hk
        simp only [if_true, hpool]
        exact and_iff_left hobject
      · simp only [if_neg hk]
        rfl
    | owned k => simp [Ne.symm hobject]
    | deleted => exact Iff.rfl

/-- No socket of the next connection has been closed. -/
theorem closings_next (h : Placed s homes place belongs) : s.closings s.accepts = [] := by
  refine List.filter_eq_nil_iff.mpr ?_
  intro e he hcl
  cases e with
  | closed k fd =>
    obtain rfl : k = s.accepts := of_decide_eq_true hcl
    exact Nat.lt_irrefl _ (h.unborn _ fd he)
  | accepted | erased | pooled | deleted => cases hcl

/-- A connection is accepted: its object belongs to the loop, and is its own from now on. -/
theorem placed_accepting (h : Placed s homes place belongs) (l : Nat) (fd : Int) :
    ∃ place' belongs', Placed (s.accepting l fd) (homes ++ [l]) place' belongs' := by
  obtain ⟨hsource, hpool, hobjects⟩ := acquired_from h l fd
  obtain ⟨hmoved, hothers⟩ := at_taken h l fd
  have hfresh := fresh_accept h
  generalize hobject : (s.acquire l fd).1.object = object₀ at *
  have hlast : (homes ++ [l])[s.accepts]? = some l := by
    rw [← h.numbered, List.getElem?_concat_length]
  have hhomes : ∀ (who k : Nat), homes[who]? = some k → (homes ++ [l])[who]? = some k := by
    intro who k hk
    rw [List.getElem?_append_left (List.getElem?_eq_some_iff.mp hk).1, hk]
  -- an object that is known belongs to the loop it did
  have hbelongs : ∀ object, object < s.objects → Function.update belongs object₀ l object =
      belongs object := by
    intro object hlt
    by_cases hsame : object = object₀
    · subst hsame
      rw [Function.update_self]
      exact (h.pooled l object ((h.at_iff _ _).mpr ⟨hlt, hsource _ ((h.at_iff _ _).mpr
        ⟨hlt, rfl⟩)⟩)).symm
    · rw [Function.update_of_ne hsame]
  have hcloses : ∀ who, (s.accepting l fd).closings who = s.closings who := by
    intro who
    simp [closings, log_accepting, ServerEffect.closes]
  have hlive : ∀ who m, (s.accepting l fd).live.find who = some m →
      who = s.accepts ∧ m = ⟨object₀, l, (s.acquire l fd).1.conn.enableReadEvent⟩ ∨
        who ≠ s.accepts ∧ s.live.find who = some m := by
    intro who m hm
    have henroll := live_enroll hm
    rwa [hobject] at henroll
  have haccepted : ∀ who object fd', .accepted who object fd' ∈ (s.accepting l fd).log ↔
      who = s.accepts ∧ object = object₀ ∧ fd' = fd ∨ .accepted who object fd' ∈ s.log := by
    intro who object fd'
    rw [log_accepting, hobject, List.mem_append, or_comm]
    simp
  refine ⟨Function.update place object₀ (.owned s.accepts), Function.update belongs object₀ l, ?_⟩
  constructor
  case at_iff => exact at_moved h.at_iff hmoved hothers hobjects
  case once =>
    intro k
    rw [pool_accepting]
    by_cases hk : k = l
    · rw [if_pos hk]
      have honce := h.once l
      rcases acquire_cases s l fd with ⟨-, -, hsame⟩ | ⟨o, hcons, -⟩
      · rwa [hsame]
      · rw [hcons, List.map_cons, List.nodup_cons] at honce
        exact honce.2
    · rw [if_neg hk]
      exact h.once k
  case numbered =>
    rw [List.length_append, h.numbered]
    rfl
  case owned =>
    intro who m hm
    rw [hcloses]
    rcases hlive who m hm with ⟨rfl, rfl⟩ | ⟨hne, hold⟩
    · refine ⟨hlast, Function.update_self _ _ _, closings_next h, ?_⟩
      intro object fd'
      rw [haccepted]
      have hmine : (s.acquire l fd).1.conn.enableReadEvent.fd = fd := (fresh_acquire s l fd).2
      constructor
      · rintro (⟨-, rfl, rfl⟩ | hknown)
        · exact ⟨rfl, hmine.symm⟩
        · exact absurd (h.accepted _ _ _ hknown).1 (Nat.lt_irrefl _)
      · rintro ⟨rfl, rfl⟩
        exact Or.inl ⟨rfl, rfl, hmine⟩
    · obtain ⟨hloop, hhome, hclosings, hfds⟩ := h.owned who m hold
      have hlt := ((h.at_iff m.object (.owned who)).mp ⟨m, hold, rfl⟩).1
      refine ⟨hhomes _ _ hloop, (hbelongs _ hlt).trans hhome, hclosings, ?_⟩
      intro object fd'
      rw [haccepted, hfds]
      exact or_iff_right fun hwho => hne hwho.1
  case pooled =>
    intro k object hat
    have hne : object ≠ object₀ := by
      rintro rfl
      cases (hmoved _).mp hat
    rw [Function.update_of_ne hne]
    exact h.pooled k object ((hothers object hne _).mp hat)
  case accepted =>
    intro who object fd' hmem
    rcases (haccepted _ _ _).mp hmem with ⟨rfl, rfl, rfl⟩ | hknown
    · refine ⟨Nat.lt_succ_self _, (hobjects _).mpr (Or.inl rfl), ?_, ?_⟩
      · rw [Function.update_self]
        exact hlast
      · intro hnone
        exact absurd (hnone.symm.trans (Dict.find_insert_self _ _ _)) (by simp)
    · obtain ⟨hlt, hobj, hloop, hclosed⟩ := h.accepted who object fd' hknown
      refine ⟨Nat.lt_succ_of_lt hlt, (hobjects _).mpr (Or.inr hobj), ?_, ?_⟩
      · rw [hbelongs object hobj]
        exact hhomes _ _ hloop
      · intro hnone
        rw [hcloses]
        refine hclosed ?_
        have hother : who ≠ s.accepts := Nat.ne_of_lt hlt
        exact (Dict.find_insert_ne _ hother _).symm.trans hnone
  case unborn =>
    intro who fd' hmem
    rw [log_accepting] at hmem
    have hold : .closed who fd' ∈ s.log := by simpa using hmem
    exact Nat.lt_succ_of_lt (h.unborn who fd' hold)

theorem placed_drop {s : Server} {homes : List Nat} {belongs : Nat → Nat}
    (h : ∃ place, Placed s homes place belongs) (who : Nat) :
    ∃ place, Placed (s.drop who) homes place belongs := by
  have hend := drop_end s who
  generalize s.drop who = t at hend ⊢
  cases hend with
  | kept => exact h
  | released m hfind =>
    obtain ⟨place, hplaced⟩ := h
    exact placed_release hplaced hfind

end Accept

/-! ## Each connection has a holder -/

theorem holds_iff (loop : EventLoop) (who : Nat) : loop.holds who = true ↔
    (∃ fd, loop.connections.find fd = some who) ∨ ∃ f ∈ loop.functors, f.self = some who := by
  constructor
  · intro h
    rcases Bool.or_eq_true_iff.mp h with hany | hany
    · obtain ⟨⟨fd, k⟩, hmem, hk⟩ := List.any_eq_true.mp hany
      obtain rfl : k = who := of_decide_eq_true hk
      exact Or.inl ⟨fd, (loop.connections.mem_pairs_iff fd k).mp hmem⟩
    · obtain ⟨f, hmem, hf⟩ := List.any_eq_true.mp hany
      exact Or.inr ⟨f, hmem, of_decide_eq_true hf⟩
  · rintro (⟨fd, hfind⟩ | ⟨f, hmem, hself⟩)
    · exact holds_of_connection hfind
    · exact holds_of_functor hmem hself

/-- Every live connection is held by its loop, but for these, whose last reference may have
just gone. -/
def HeldExcept (s : Server) (whos : List Nat) : Prop :=
  ∀ who m, s.live.find who = some m → who ∈ whos ∨ (s.loops m.home).holds who = true

theorem held_setLoop {s : Server} {l : Nat} {loop : EventLoop} {whos : List Nat}
    (h : s.HeldExcept [])
    (holds : ∀ who, (s.loops l).holds who = true → who ∈ whos ∨ loop.holds who = true) :
    (s.setLoop l loop).HeldExcept whos := by
  intro who m hfind
  have hheld := (h who m hfind).resolve_left List.not_mem_nil
  rcases loops_setLoop s l m.home loop with ⟨hl, hk⟩ | hk
  · rw [hk]
    exact holds who (hl ▸ hheld)
  · rw [hk]
    exact Or.inr hheld

/-- The connections of the loop stay, and its functors are among those of the new one. -/
theorem held_grow {s : Server} {l : Nat} {loop : EventLoop} (h : s.HeldExcept [])
    (connections : loop.connections = (s.loops l).connections)
    (functors : ∀ f ∈ (s.loops l).functors, f ∈ loop.functors) :
    (s.setLoop l loop).HeldExcept [] := by
  refine held_setLoop h ?_
  intro who hholds
  refine Or.inr ((holds_iff loop who).mpr ?_)
  rcases (holds_iff _ who).mp hholds with hconn | ⟨f, hf, hself⟩
  · exact Or.inl (connections ▸ hconn)
  · exact Or.inr ⟨f, functors f hf, hself⟩

theorem held_queueInLoop {s : Server} (h : s.HeldExcept []) (l : Nat) (fs : List LoopFunctor) :
    (s.queueInLoop l fs).HeldExcept [] := by
  refine held_grow h rfl ?_
  intro f hf
  simp only [EventLoop.functors, List.mem_append] at hf ⊢
  exact hf.imp_right Or.inl

theorem held_perform {s : Server} (h : s.HeldExcept []) {who : Nat} {m : Shared}
    (found : s.live.find who = some m) (out : Connection × List Effect) :
    (s.perform who m out).HeldExcept [] := by
  refine held_queueInLoop ?_ _ _
  intro k n hk
  rcases Dict.find_of_insert hk with ⟨rfl, rfl⟩ | ⟨-, hold⟩
  · exact h k m found
  · exact h k n hold

theorem held_drop {s : Server} {who : Nat} {whos : List Nat} (h : s.HeldExcept (who :: whos)) :
    (s.drop who).HeldExcept whos := by
  intro k n hk
  obtain ⟨pool, hloop⟩ := loops_drop s who n.home
  have hsame : ((s.drop who).loops n.home).holds k = (s.loops n.home).holds k := by
    rw [hloop]
    rfl
  rw [hsame]
  rcases h k n (live_drop hk) with hmem | hheld
  · rcases List.mem_cons.mp hmem with rfl | hrest
    · -- the connection itself is live after the drop only if it is held
      refine Or.inr ?_
      by_contra hunheld
      have hgone : (s.drop k).live.find k = none := by
        simp only [drop, live_drop hk, if_neg hunheld, release, live_record, live_setLoop]
        exact Dict.find_erase_self _ _
      cases hgone.symm.trans hk
    · exact Or.inl hrest
  · exact Or.inr hheld

theorem held_drops {s : Server} {whos : List Nat} (h : s.HeldExcept whos) :
    (whos.foldl drop s).HeldExcept [] := by
  induction whos generalizing s with
  | nil => exact h
  | cons who whos ih => exact ih (held_drop h)

theorem held_elim_drop {s : Server} {who : Option Nat} (h : s.HeldExcept who.toList) :
    (who.elim s s.drop).HeldExcept [] := by
  cases who with
  | none => exact h
  | some who => exact held_drop h

theorem held_erase {s : Server} (h : s.HeldExcept []) (l : Nat) (fd : Int) (whom : Nat) :
    (s.erase l fd whom).HeldExcept [] := by
  have hforgot : (s.setLoop l { s.loops l with
      connections := (s.loops l).connections.erase fd }).HeldExcept
      ((s.loops l).connections.find fd).toList := by
    refine held_setLoop h ?_
    intro who hholds
    rw [holds_iff]
    rcases (holds_iff _ who).mp hholds with ⟨fd', hfind⟩ | hfunctor
    · by_cases hfd : fd' = fd
      · exact Or.inl (Option.mem_toList.mpr (hfd ▸ hfind))
      · exact Or.inr (Or.inl ⟨fd', (Dict.find_erase_ne _ hfd).trans hfind⟩)
    · exact Or.inr (Or.inr hfunctor)
  exact held_elim_drop (s := (s.setLoop l { s.loops l with
    connections := (s.loops l).connections.erase fd }).record _) hforgot

theorem held_handleListenEvent {s : Server} (h : s.HeldExcept []) (l : Nat) (fd : Int) :
    (s.handleListenEvent l fd).HeldExcept [] := by
  refine held_elim_drop (s := s.accepting l fd) ?_
  intro who m hfind
  rcases live_enroll hfind with ⟨rfl, rfl⟩ | ⟨-, hold⟩
  · refine Or.inr ((holds_iff _ _).mpr (Or.inl ⟨fd, ?_⟩))
    rw [accepting, enroll, loops_record, loops_setLoop_self]
    exact Dict.find_insert_self _ _ _
  · have hheld := (h who m hold).resolve_left List.not_mem_nil
    rcases loops_enroll s l fd (s.acquire l fd).1 (s.acquire l fd).2.1 (s.acquire l fd).2.2
      m.home with ⟨hl, hk⟩ | hk
    · rw [accepting, hk, holds_iff]
      rcases (holds_iff _ who).mp hheld with ⟨fd', hconn⟩ | hfunctor
      · rw [hl] at hconn
        by_cases hfd : fd' = fd
        · exact Or.inl (Option.mem_toList.mpr (hfd ▸ hconn))
        · exact Or.inr (Or.inl ⟨fd', (Dict.find_insert_ne _ hfd _).trans hconn⟩)
      · exact Or.inr (Or.inr (hl ▸ hfunctor))
    · rw [accepting, hk]
      exact Or.inr hheld

theorem held_destroy {s : Server} (h : s.HeldExcept []) (l : Nat) : (s.destroy l).HeldExcept [] := by
  refine held_drops (held_setLoop h ?_)
  intro who hholds
  rw [holds_iff]
  rcases (holds_iff _ who).mp hholds with hconn | ⟨f, hf, hself⟩
  · exact Or.inr (Or.inl hconn)
  · simp only [EventLoop.functors, List.append_assoc, List.mem_append, List.nil_append] at hf ⊢
    rcases hf with hran | hwaiting
    · exact Or.inl (List.mem_filterMap.mpr ⟨f, hran, hself⟩)
    · exact Or.inr (Or.inr ⟨f, hwaiting, hself⟩)

theorem held_step {s t : Server} {a : ServerAct} (h : s.HeldExcept []) (hstep : s.step a = some t) :
    t.HeldExcept [] := by
  cases taken_of_step hstep with
  | accept l fd => exact held_handleListenEvent h l fd
  | readable who m env arrival hfind => exact held_perform h hfind _
  | writable who m sends files hfind => exact held_perform h hfind _
  | hangup who m hfind => exact held_perform h hfind _
  | expire l fd who =>
    refine held_grow h rfl ?_
    intro f hf
    simp only [EventLoop.functors, List.mem_append] at hf ⊢
    exact hf.imp_right Or.inl
  | swap l hidle =>
    refine held_grow h rfl ?_
    intro f hf
    obtain ⟨hbatch, -⟩ := of_decide_eq_true hidle
    simpa [EventLoop.functors, hbatch] using hf
  | run l env sends f rest hbatch =>
    have htake : (s.take l f rest).HeldExcept [] := by
      refine held_grow h rfl ?_
      intro g hg
      simpa [EventLoop.functors, hbatch] using hg
    cases f with
    | call who cb =>
      exact call_keeps (HeldExcept · []) htake l who cb env sends
        fun m hfind => held_perform htake hfind _
    | timeout fd who => exact held_queueInLoop htake l _
    | erase fd who => exact held_erase htake l fd who
  | destroy l => exact held_destroy h l

/-! ## Runs -/

/-- The state of all objects after the accepts of a run, which went to these loops. -/
structure Kept (s : Server) (homes : List Nat) : Prop where
  consistent : s.Consistent
  held : s.HeldExcept []
  placed : ∃ place belongs, Placed s homes place belongs

theorem kept_new (resourceDir : Str) (router : Option Router) :
    (new resourceDir router).Kept [] := by
  have hnot : ∀ object p, ¬(new resourceDir router).At object p := by
    rintro object (l | who | _) hat
    · obtain ⟨o, ho, -⟩ := hat
      cases ho
    · obtain ⟨m, hm, -⟩ := hat
      cases hm
    · cases hat
  refine ⟨consistent_started (started_new resourceDir router), ?_,
    fun _ => .deleted, fun _ => 0, ?_⟩
  · intro who m hfind
    cases hfind
  · constructor
    case at_iff =>
      intro object p
      refine iff_of_false (hnot object p) ?_
      rintro ⟨hlt, -⟩
      exact absurd hlt (Nat.not_lt_zero _)
    case once => exact fun _ => List.nodup_nil
    case numbered => rfl
    case owned =>
      intro who m hfind
      cases hfind
    case pooled => exact fun l object hat => absurd hat (hnot object _)
    case accepted =>
      intro who object fd hmem
      cases hmem
    case unborn =>
      intro who fd hmem
      cases hmem

theorem kept_step {s t : Server} {a : ServerAct} {homes : List Nat} (h : s.Kept homes)
    (hstep : s.step a = some t) : t.Kept (homes ++ a.acceptLoop.toList) := by
  refine ⟨consistent_step h.consistent hstep, held_step h.held hstep, ?_⟩
  obtain ⟨place, belongs, hplaced⟩ := h.placed
  rcases step_keeps (fun s => ∃ place, Placed s homes place belongs)
    (fun s l loop pool ⟨place, h⟩ => ⟨place, placed_setLoop h l loop pool⟩)
    (fun s who m conn found fd ⟨place, h⟩ => ⟨place, placed_replace h found fd⟩)
    (fun s l fd whom removed ⟨place, h⟩ => ⟨place, placed_erased h l fd whom removed⟩)
    (fun s who m found ⟨_, h⟩ => placed_release h found)
    ⟨place, hplaced⟩ h.consistent hstep with ⟨hnone, place', hplaced'⟩ | ⟨l, fd, rfl, -, rfl⟩
  · rw [hnone, Option.toList_none, List.append_nil]
    exact ⟨place', belongs, hplaced'⟩
  · obtain ⟨place', belongs', hplaced'⟩ := placed_accepting hplaced l fd
    have hdropped : ∃ place, Placed (s.handleListenEvent l fd) (homes ++ [l]) place belongs' :=
      elim_drop_keeps (fun s => ∃ place, Placed s (homes ++ [l]) place belongs')
        (fun _ who h => placed_drop h who) (s := s.accepting l fd) ⟨place', hplaced'⟩ _
    obtain ⟨place'', hplaced''⟩ := hdropped
    exact ⟨place'', belongs', hplaced''⟩

theorem kept_run {resourceDir : Str} {router : Option Router} {as : List ServerAct} {t : Server}
    (run : exec (new resourceDir router) as = some t) : t.Kept (acceptLoops as) := by
  refine GuardedRuns.history_of_run (fun s before => s.Kept (acceptLoops before)) ?_
    (kept_new resourceDir router) run
  intro s a t before h hstep
  have hloops : acceptLoops (before ++ [a]) = acceptLoops before ++ a.acceptLoop.toList := by
    rw [acceptLoops, List.filterMap_append]
    cases a <;> rfl
  rw [hloops]
  exact kept_step h hstep

/-- Objects, references and sockets, after the accepts of a run went to these loops. -/
structure Owned (s : Server) (homes : List Nat) : Prop where
  placed : ∀ object, object < s.objects → ∃! p, s.At object p
  once : ∀ l, ((s.loops l).pool.objects.map (·.object)).Nodup
  home : ∀ who object fd, .accepted who object fd ∈ s.log → ∃ l, homes[who]? = some l ∧
    (∀ k, s.At object (.pooled k) → k = l) ∧
    ∀ m, s.live.find who = some m → m.object = object ∧ m.home = l ∧ m.conn.fd = fd
  shared : ∀ who, (∃ m, s.live.find who = some m) ↔ ∃ l, (s.loops l).holds who = true
  closed : ∀ who object fd, .accepted who object fd ∈ s.log →
    s.closings who = if (s.live.find who).isSome then [] else [.closed who fd]
  bounded : ∀ l, (s.loops l).pool.objects.length ≤ ObjectPool.maxSize

theorem live_of_holds {s : Server} (h : s.Consistent) {l who : Nat}
    (held : (s.loops l).holds who = true) : ∃ m, s.live.find who = some m := by
  rcases (holds_iff _ who).mp held with ⟨fd, hfind⟩ | ⟨f, hf, hself⟩
  · obtain ⟨m, hm, -⟩ := h.registered l fd who hfind
    exact ⟨m, hm⟩
  · have hrefers := h.functors l f hf
    cases f with
    | call k cb =>
      obtain rfl := Option.some.inj hself
      obtain ⟨m, hm, -⟩ := hrefers
      exact ⟨m, hm⟩
    | timeout | erase => cases hself

/-- Over every run each object is in one place, and each socket is closed once, when the
last reference to its connection goes. -/
theorem objects_owned {resourceDir : Str} {router : Option Router} {as : List ServerAct}
    {t : Server} (run : exec (new resourceDir router) as = some t) : t.Owned (acceptLoops as) := by
  obtain ⟨hconsistent, hheld, place, belongs, hplaced⟩ := kept_run run
  constructor
  case placed =>
    intro object hlt
    refine ⟨place object, (hplaced.at_iff object _).mpr ⟨hlt, rfl⟩, ?_⟩
    intro p hat
    exact ((hplaced.at_iff object p).mp hat).2.symm
  case once => exact hplaced.once
  case home =>
    intro who object fd hmem
    obtain ⟨-, -, hloop, -⟩ := hplaced.accepted who object fd hmem
    refine ⟨belongs object, hloop, ?_, ?_⟩
    · intro k hat
      exact (hplaced.pooled k object hat).symm
    · intro m hm
      obtain ⟨-, hhome, -, hfds⟩ := hplaced.owned who m hm
      obtain ⟨rfl, rfl⟩ := (hfds object fd).mp hmem
      exact ⟨rfl, hhome.symm, rfl⟩
  case shared =>
    intro who
    constructor
    · rintro ⟨m, hm⟩
      exact ⟨m.home, (hheld who m hm).resolve_left List.not_mem_nil⟩
    · rintro ⟨l, hl⟩
      exact live_of_holds hconsistent hl
  case closed =>
    intro who object fd hmem
    cases hfind : t.live.find who with
    | none => exact (hplaced.accepted who object fd hmem).2.2.2 hfind
    | some m => exact (hplaced.owned who m hfind).2.2.1
  case bounded => exact fun l => (t.loops l).pool.bounded

/-- The object of a connection that the peer closed is used for the next one. -/
theorem objects_owned_again :
    let env := Env.table []
    let batch := batchOf 0 env ⟨[], .again⟩
    let as := [.accept 0 5, peerCloses 0 env] ++ batch 1 ++ batch 1 ++ [.accept 0 7]
    ∃ t, exec (new (lit "/w") none) as = some t ∧ .closed 0 5 ∈ t.log ∧
      .accepted 1 0 7 ∈ t.log ∧ t.Owned [0, 0] := by
  intro env batch as
  have hlog : (exec (new (lit "/w") none) as).map (fun t =>
      (decide (.closed 0 5 ∈ t.log), decide (.accepted 1 0 7 ∈ t.log))) = some (true, true) := by
    decide +kernel
  obtain ⟨t, ht, hparts⟩ := Option.map_eq_some_iff.mp hlog
  obtain ⟨hclosed, haccepted⟩ := Prod.mk.inj hparts
  exact ⟨t, ht, of_decide_eq_true hclosed, of_decide_eq_true haccepted, objects_owned ht⟩

end Server

end WebServer
