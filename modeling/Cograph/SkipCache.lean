import Cograph.Dict

/-!
# A cache of what was made of a view

Each id has at most one row: the text made of a view of it, and a key of that
view. While the key of the view now is the one in the row, the row is kept as it
is. That is sound as far as the key of a view tells its text.
-/

namespace SkipCache

open Cograph

variable {ι V K T : Type} [DecidableEq ι] [DecidableEq K]

/-- A row, with the view it was made of. -/
structure Row (V K T : Type) where
  key : K
  text : T
  made : V

abbrev Cache (ι V K T : Type) := Dict.Items ι (Row V K T)

variable (key : V → K) (text : V → T)

def fresh (v : V) : Row V K T := ⟨key v, text v, v⟩

/-- Whether the row of an id is kept for a view. -/
def skips (c : Cache ι V K T) (i : ι) (v : V) : Bool := (Dict.get c i).any (·.key = key v)

/-- The rows of so many jobs, written one after the other. -/
def store (c : Cache ι V K T) (jobs : List (ι × V)) : Cache ι V K T :=
  jobs.foldl (fun c job => Dict.put c job.1 (fresh key text job.2)) c

/-- The rows of the ids that stay. -/
def prune (c : Cache ι V K T) (stays : ι → Bool) : Cache ι V K T := c.filter fun x => stays x.1

/-- Every row is the one its view gives, and its view is a good one. -/
def Faithful (Good : V → Prop) (c : Cache ι V K T) : Prop :=
  ∀ x ∈ c, x.2 = fresh key text x.2.made ∧ Good x.2.made

variable {key text} {Good : V → Prop} {c : Cache ι V K T}

omit [DecidableEq K] in
theorem Faithful.store (h : Faithful key text Good c) {jobs : List (ι × V)} (hjobs : ∀ job ∈ jobs, Good job.2) :
    Faithful key text Good (store key text c jobs) := by
  induction jobs generalizing c with
  | nil => exact h
  | cons job jobs ih =>
    apply ih _ fun j hj => hjobs j (List.mem_cons_of_mem _ hj)
    intro x hx
    rcases Dict.mem_put hx with rfl | hx
    · exact ⟨rfl, hjobs job (by simp)⟩
    · exact h x hx

omit [DecidableEq ι] [DecidableEq K] in
theorem Faithful.prune (h : Faithful key text Good c) (stays : ι → Bool) : Faithful key text Good (prune c stays) :=
  fun x hx => h x (List.mem_filter.1 hx).1

/-- **Skipping.** A row that is kept holds the text of its own view, whose key
is the key of the view now. -/
theorem Faithful.skips (h : Faithful key text Good c) {i : ι} {v : V} (hs : skips key c i v = true) :
    ∃ row, Dict.get c i = some row ∧ row.text = text row.made ∧ key row.made = key v ∧ Good row.made := by
  obtain ⟨row, hrow, hkey⟩ := (Option.any_eq_true _ _).1 hs
  obtain ⟨hfresh, hgood⟩ := h _ (Dict.mem_of_get hrow)
  have hk : row.key = key row.made := congrArg Row.key hfresh
  exact ⟨row, hrow, congrArg Row.text hfresh, hk ▸ by simpa using hkey, hgood⟩

end SkipCache
