import WebServer.Handlers

/-!
# Records that differ in the order of headers

Two objects may read the same header map in different orders, and then the same response is
written with its header lines in different orders. Nothing else depends on it: the head is
as long either way, and a send is told how many bytes were taken. Two records run alongside
when they agree in everything but the bytes, when the responses are the same but for these
orders, and when each send takes the same stretch of what has been written.
-/

namespace WebServer

/-- A response written twice, in orders that are allowed beside each other. -/
def Rearranged (beside : HeaderOrder → HeaderOrder → Prop) (x x' : Str) : Prop :=
  ∃ (r : HttpResponse) (o o' : HeaderOrder) (body : Str),
    beside o o' ∧ x = r.head o ++ body ∧ x' = r.head o' ++ body

section
variable {beside : HeaderOrder → HeaderOrder → Prop} {x x' : Str}

theorem HttpResponse.head_length (r : HttpResponse) (o o' : HeaderOrder) :
    (r.head o).length = (r.head o').length := by
  have hperm : (r.lines o).Perm (r.lines o') := (o.perm _).trans (o'.perm _).symm
  have hlines : ((r.lines o).flatMap headerLine).length =
      ((r.lines o').flatMap headerLine).length :=
    (hperm.flatMap_right headerLine).length_eq
  rw [head, head, List.length_append, List.length_append, List.length_append, List.length_append,
    hlines]

theorem rearranged_length (h : Rearranged beside x x') : x.length = x'.length := by
  obtain ⟨r, o, o', body, -, rfl, rfl⟩ := h
  rw [List.length_append, List.length_append, r.head_length o o']

theorem rearranged_eq (h : Rearranged Eq x x') : x = x' := by
  obtain ⟨r, o, o', body, rfl, rfl, rfl⟩ := h
  rfl

end

/-- What two connections have written so far, and how much of it has left their buffers. -/
structure Wires where
  first : Str
  second : Str
  taken : Nat

structure Wires.Even (w : Wires) : Prop where
  lengths : w.first.length = w.second.length
  within : w.taken ≤ w.first.length

/-- The effect carries bytes of a response. -/
def Effect.carries : Effect → Bool
  | .responded _ _ | .sent _ => true
  | _ => false

/-- The records run alongside, from what was written before them to what is written after. -/
inductive Alongside (beside : HeaderOrder → HeaderOrder → Prop) :
    Wires → List Effect → List Effect → Wires → Prop where
  | nil (w : Wires) : Alongside beside w [] [] w
  | same {w v : Wires} {fx fx' : List Effect} (e : Effect) : e.carries = false →
      Alongside beside w fx fx' v → Alongside beside w (e :: fx) (e :: fx') v
  | responded {a b x x' : Str} {n : Nat} {v : Wires} {fx fx' : List Effect} (file : Option Nat) :
      Rearranged beside x x' → Alongside beside ⟨a ++ x, b ++ x', n⟩ fx fx' v →
      Alongside beside ⟨a, b, n⟩ (.responded x file :: fx) (.responded x' file :: fx') v
  | sent {a b : Str} {n : Nat} {v : Wires} {fx fx' : List Effect} (k : Nat) :
      n + k ≤ a.length → Alongside beside ⟨a, b, n + k⟩ fx fx' v →
      Alongside beside ⟨a, b, n⟩ (.sent ((a.drop n).take k) :: fx)
        (.sent ((b.drop n).take k) :: fx') v
  | dropped {a b : Str} {n m : Nat} {v : Wires} {fx fx' : List Effect} :
      n ≤ m → m ≤ a.length → Alongside beside ⟨a, b, m⟩ fx fx' v →
      Alongside beside ⟨a, b, n⟩ fx fx' v

namespace Alongside

variable {beside : HeaderOrder → HeaderOrder → Prop} {w v u : Wires} {fx fx' gx gx' : List Effect}

theorem append (h : Alongside beside w fx fx' v) (h' : Alongside beside v gx gx' u) :
    Alongside beside w (fx ++ gx) (fx' ++ gx') u := by
  induction h with
  | nil w => exact h'
  | same e quiet _ ih => exact .same e quiet (ih h')
  | responded file written _ ih => exact .responded file written (ih h')
  | sent k within _ ih => exact .sent k within (ih h')
  | dropped less within _ ih => exact .dropped less within (ih h')

/-- Effects without bytes are the same on both sides. -/
theorem quiet (w : Wires) {fx : List Effect} (h : ∀ e ∈ fx, e.carries = false) :
    Alongside beside w fx fx w := by
  induction fx with
  | nil => exact .nil w
  | cons e fx ih =>
    obtain ⟨hfirst, hrest⟩ := List.forall_mem_cons.mp h
    exact .same e hfirst (ih hrest)

theorem single (w : Wires) (e : Effect) (h : e.carries = false) :
    Alongside beside w [e] [e] w := .same e h (.nil w)

theorem even (h : Alongside beside w fx fx' v) (start : w.Even) : v.Even := by
  induction h with
  | nil w => exact start
  | same e _ _ ih => exact ih start
  | @responded a b x x' n v fx fx' file written _ ih =>
    have hwithin : n ≤ a.length := start.within
    have hlengths : a.length = b.length := start.lengths
    refine ih ⟨?_, ?_⟩
    · simp only [List.length_append, hlengths, rearranged_length written]
    · show n ≤ (a ++ x).length
      rw [List.length_append]
      omega
  | sent k within _ ih => exact ih ⟨start.lengths, within⟩
  | dropped _ within _ ih => exact ih ⟨start.lengths, within⟩

theorem queued (h : Alongside beside w fx fx' v) : queuedOf fx = queuedOf fx' := by
  induction h with
  | nil w => rfl
  | @same w v fx fx' e _ _ ih =>
    have hcons : ∀ gx, queuedOf (e :: gx) = queuedOf [e] ++ queuedOf gx := fun gx =>
      show queuedOf ([e] ++ gx) = _ from List.filterMap_append
    rw [hcons fx, hcons fx', ih]
  | responded file _ _ ih => exact ih
  | sent k _ _ ih => exact ih
  | dropped _ _ _ ih => exact ih

/-- Where the orders are the same, so are the records. -/
theorem eq (h : Alongside Eq w fx fx' v) (same : w.first = w.second) : fx = fx' := by
  induction h with
  | nil w => rfl
  | same e _ _ ih => rw [ih same]
  | @responded a b x x' n v fx fx' file written _ ih =>
    obtain rfl : a = b := same
    obtain rfl := rearranged_eq written
    rw [ih rfl]
  | @sent a b n v fx fx' k _ _ ih =>
    obtain rfl : a = b := same
    rw [ih rfl]
  | dropped _ _ _ ih => exact ih same

end Alongside

end WebServer
