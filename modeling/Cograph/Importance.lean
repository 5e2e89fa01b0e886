import Cograph.Dict
import Cograph.Ranked

/-!
# Importance of code nodes

`compute_importance` of `graph/importance.py`, with exact ranks: a node passes
a share of its rank on to each of its callees, and the rank of a node without
callees goes to all.
-/

namespace Cograph.Importance

/-- A row of the query, its id and its callees as texts. -/
structure Row (ι : Type) where
  id : ι
  callees : Option (List ι)

section
variable {ι : Type} [LinearOrder ι] (rows : List (Row ι))

def allIds : List ι := Ranked.sorted (rows.map (·.id))

def idx : Dict.Items ι Nat := Dict.ofItems (allIds rows).zipIdx

/-- The callees of a row among the nodes, itself left out, each as often as the
row names it. -/
def followed (row : Row ι) : List Nat :=
  (row.callees.getD []).filterMap fun c => if c = row.id then none else Dict.get (idx rows) c

def addRow (outEdges : List (List Nat)) (row : Row ι) : List (List Nat) :=
  match Dict.get (idx rows) row.id with
  | none => outEdges
  | some i => outEdges.modify i fun callees => Ranked.sorted (callees ++ followed rows row)

def outEdges : List (List Nat) := rows.foldl (addRow rows) (List.replicate rows.length [])

/-! ## Iterations -/

section
variable (damping : ℚ) (outEdges : List (List Nat)) (rank : List ℚ)

/-- The rank of the nodes that call none. -/
def dangling : ℚ := (((rank.zip outEdges).filter (·.2 = [])).map (·.1)).sum

def base : ℚ := (1 - damping) / outEdges.length + damping * dangling outEdges rank / outEdges.length

/-- One node's turn: its share goes to each of its callees. -/
def passOn (newRank : List ℚ) (node : ℚ × List Nat) : List ℚ :=
  if node.2 = [] then newRank
  else
    let contrib := damping * node.1 / node.2.length
    node.2.foldl (fun newRank j => newRank.modify j (· + contrib)) newRank

def iterate : List ℚ :=
  (rank.zip outEdges).foldl (passOn damping) (List.replicate outEdges.length (base damping outEdges rank))

def delta (newRank : List ℚ) : ℚ := ((newRank.zip rank).map fun r => |r.1 - r.2|).sum

end

/-- The ranks after each iteration. -/
def ranks (damping tol : ℚ) (outEdges : List (List Nat)) : Nat → List ℚ → List (List ℚ)
  | 0, _ => []
  | maxIter + 1, rank =>
    let newRank := iterate damping outEdges rank
    if delta rank newRank < tol then [newRank] else newRank :: ranks damping tol outEdges maxIter newRank

def firstRank : List ℚ := List.replicate rows.length (1 / rows.length)

def allRanks (damping tol : ℚ) (maxIter : Nat) : List (List ℚ) :=
  firstRank rows :: ranks damping tol (outEdges rows) maxIter (firstRank rows)

def normalised (rank : List ℚ) : List ℚ := if rank.sum > 0 then rank.map (· / rank.sum) else rank

def computeImportance (damping tol : ℚ) (maxIter : Nat) : Dict.Items ι ℚ :=
  if rows = [] then []
  else (allIds rows).zip (normalised ((allRanks rows damping tol maxIter).getLastD []))

end

end Cograph.Importance

/-!
## Importance keeps its mass

The shares of a node add up to its damped rank, however often it names a callee,
and the base holds what the nodes without callees would have passed on. So the
ranks add up to one after every iteration, none falls below the base of an
isolated node, and the last division divides by one.
-/

namespace Cograph.Importance

/-! ## Adding into a list -/

theorem sum_modify {l : List ℚ} {j : Nat} (x : ℚ) (hj : j < l.length) : (l.modify j (· + x)).sum = l.sum + x := by
  induction l generalizing j with
  | nil => cases hj
  | cons a l ih =>
    cases j with
    | zero =>
      rw [List.modify_zero_cons, List.sum_cons, List.sum_cons]
      ring
    | succ j =>
      rw [List.modify_succ_cons, List.sum_cons, List.sum_cons, ih (Nat.lt_of_succ_lt_succ hj)]
      ring

theorem modify_ge {l : List ℚ} {b x : ℚ} (hx : 0 ≤ x) (hl : ∀ r ∈ l, b ≤ r) (j : Nat) :
    ∀ r ∈ l.modify j (· + x), b ≤ r := by
  intro r hr
  obtain ⟨i, hi, rfl⟩ := List.getElem_of_mem hr
  rw [List.getElem_modify]
  have hold := hl _ (List.getElem_mem (by simpa using hi))
  split
  · linarith
  · exact hold

section
variable {x : ℚ} {js : List Nat} {l : List ℚ}

theorem length_addAll : (js.foldl (fun l j => l.modify j (· + x)) l).length = l.length := by
  induction js generalizing l with
  | nil => rfl
  | cons j js ih => rw [List.foldl_cons, ih, List.length_modify]

theorem sum_addAll (hjs : ∀ j ∈ js, j < l.length) :
    (js.foldl (fun l j => l.modify j (· + x)) l).sum = l.sum + js.length * x := by
  induction js generalizing l with
  | nil => simp
  | cons j js ih =>
    have hrest : ∀ j' ∈ js, j' < (l.modify j (· + x)).length := by
      intro j' hj'
      rw [List.length_modify]
      exact hjs j' (List.mem_cons_of_mem _ hj')
    rw [List.foldl_cons, ih hrest, sum_modify x (hjs j List.mem_cons_self), List.length_cons, Nat.cast_succ]
    ring

theorem addAll_ge {b : ℚ} (hx : 0 ≤ x) (hl : ∀ r ∈ l, b ≤ r) : ∀ r ∈ js.foldl (fun l j => l.modify j (· + x)) l, b ≤ r := by
  induction js generalizing l with
  | nil => exact hl
  | cons j js ih => exact ih (modify_ge hx hl j)

end

/-! ## One iteration -/

section
variable {damping : ℚ} {outEdges : List (List Nat)} {rank newRank : List ℚ} {node : ℚ × List Nat}

theorem length_passOn : (passOn damping newRank node).length = newRank.length := by
  unfold passOn
  split
  · rfl
  · exact length_addAll

/-- A node with callees passes its damped rank on, whole. -/
theorem sum_passOn (hin : ∀ j ∈ node.2, j < newRank.length) :
    (passOn damping newRank node).sum = newRank.sum + if node.2 = [] then 0 else damping * node.1 := by
  unfold passOn
  split
  · simp
  · rename_i hne
    have hpos : (node.2.length : ℚ) ≠ 0 := by
      rw [Nat.cast_ne_zero, List.length_eq_zero_iff.ne]
      exact hne
    rw [sum_addAll hin]
    field_simp

theorem passOn_ge {b : ℚ} (hd : 0 ≤ damping) (hr : 0 ≤ node.1) (hl : ∀ r ∈ newRank, b ≤ r) :
    ∀ r ∈ passOn damping newRank node, b ≤ r := by
  unfold passOn
  split
  · exact hl
  · exact addAll_ge (by positivity) hl

theorem length_turns (nodes : List (ℚ × List Nat)) : (nodes.foldl (passOn damping) newRank).length = newRank.length := by
  induction nodes generalizing newRank with
  | nil => rfl
  | cons node nodes ih => rw [List.foldl_cons, ih, length_passOn]

theorem turns_ge {b : ℚ} (hd : 0 ≤ damping) {nodes : List (ℚ × List Nat)} (hr : ∀ node ∈ nodes, 0 ≤ node.1)
    (hl : ∀ r ∈ newRank, b ≤ r) : ∀ r ∈ nodes.foldl (passOn damping) newRank, b ≤ r := by
  induction nodes generalizing newRank with
  | nil => exact hl
  | cons node nodes ih =>
    rw [List.foldl_cons]
    exact ih (fun node' h => hr node' (List.mem_cons_of_mem _ h)) (passOn_ge hd (hr node List.mem_cons_self) hl)

/-- What the nodes pass on, and what they would if the dangling ones did. -/
theorem sum_turns {nodes : List (ℚ × List Nat)} (hin : ∀ node ∈ nodes, ∀ j ∈ node.2, j < newRank.length) :
    (nodes.foldl (passOn damping) newRank).sum + damping * ((nodes.filter (·.2 = [])).map (·.1)).sum =
      newRank.sum + damping * (nodes.map (·.1)).sum := by
  induction nodes generalizing newRank with
  | nil => simp
  | cons node nodes ih =>
    have hrest : ∀ node' ∈ nodes, ∀ j ∈ node'.2, j < (passOn damping newRank node).length := by
      intro node' h
      rw [length_passOn]
      exact hin node' (List.mem_cons_of_mem _ h)
    have hnode := @sum_passOn damping _ _ (hin node List.mem_cons_self)
    have ih := ih hrest
    rw [hnode] at ih
    rw [List.foldl_cons, List.map_cons, List.sum_cons, List.filter_cons]
    by_cases hnil : node.2 = []
    · simp only [hnil, decide_true, if_true, List.map_cons, List.sum_cons] at ih ⊢
      linarith
    · simp only [hnil, decide_false, Bool.false_eq_true, if_false] at ih ⊢
      linarith

end

/-- The ranks of a run: one a node, adding up to one, none below what an
isolated node gets. -/
structure Mass (damping : ℚ) (n : Nat) (rank : List ℚ) : Prop where
  length : rank.length = n
  sum : rank.sum = 1
  nonneg : ∀ r ∈ rank, 0 ≤ r
  least : ∀ r ∈ rank, (1 - damping) / n ≤ r

section
variable {damping tol : ℚ} {outEdges : List (List Nat)} {rank : List ℚ}

theorem iterate_mass (h0 : 0 ≤ damping) (h1 : damping ≤ 1) (hne : outEdges ≠ [])
    (hin : ∀ callees ∈ outEdges, ∀ j ∈ callees, j < outEdges.length) (hrank : Mass damping outEdges.length rank) :
    Mass damping outEdges.length (iterate damping outEdges rank) := by
  have hpos : (0 : ℚ) < outEdges.length := by
    rw [Nat.cast_pos]
    exact List.length_pos_iff.2 hne
  have hnodes : ∀ node ∈ rank.zip outEdges, 0 ≤ node.1 ∧ ∀ j ∈ node.2, j < outEdges.length := by
    intro node hnode
    obtain ⟨hr, hc⟩ := List.of_mem_zip hnode
    exact ⟨hrank.nonneg _ hr, hin _ hc⟩
  have hdangling : 0 ≤ dangling outEdges rank := by
    refine List.sum_nonneg fun r hr => ?_
    obtain ⟨node, hnode, rfl⟩ := List.mem_map.1 hr
    exact (hnodes node (List.mem_of_mem_filter hnode)).1
  have hleast : (1 - damping) / outEdges.length ≤ base damping outEdges rank := by
    unfold base
    have : 0 ≤ damping * dangling outEdges rank / outEdges.length := by positivity
    linarith
  have hfree : 0 ≤ (1 - damping) / outEdges.length := div_nonneg (by linarith) hpos.le
  have hge : ∀ r ∈ iterate damping outEdges rank, base damping outEdges rank ≤ r :=
    turns_ge h0 (fun node hnode => (hnodes node hnode).1) fun r hr => (List.eq_of_mem_replicate hr).ge
  refine ⟨?_, ?_, fun r hr => hfree.trans (hleast.trans (hge r hr)), fun r hr => hleast.trans (hge r hr)⟩
  · rw [iterate, length_turns, List.length_replicate]
  · have hfits : ∀ node ∈ rank.zip outEdges, ∀ j ∈ node.2,
        j < (List.replicate outEdges.length (base damping outEdges rank)).length := by
      intro node hnode
      rw [List.length_replicate]
      exact (hnodes node hnode).2
    have hturns := @sum_turns damping _ _ hfits
    rw [List.map_fst_zip hrank.length.le, hrank.sum, List.sum_replicate, nsmul_eq_mul] at hturns
    have hbase : outEdges.length * base damping outEdges rank = (1 - damping) + damping * dangling outEdges rank := by
      unfold base
      field_simp
    rw [hbase] at hturns
    have hend : (iterate damping outEdges rank).sum + damping * dangling outEdges rank =
        1 - damping + damping * dangling outEdges rank + damping * 1 := hturns
    linarith

theorem ranks_mass (h0 : 0 ≤ damping) (h1 : damping ≤ 1) (hne : outEdges ≠ [])
    (hin : ∀ callees ∈ outEdges, ∀ j ∈ callees, j < outEdges.length) (maxIter : Nat)
    (hrank : Mass damping outEdges.length rank) :
    ∀ newRank ∈ ranks damping tol outEdges maxIter rank, Mass damping outEdges.length newRank := by
  induction maxIter generalizing rank with
  | zero => exact nofun
  | succ maxIter ih =>
    intro newRank hnew
    have hstep := iterate_mass h0 h1 hne hin hrank
    rw [ranks] at hnew
    split at hnew
    · rw [List.mem_singleton.1 hnew]
      exact hstep
    · rcases List.mem_cons.1 hnew with rfl | hnew
      · exact hstep
      · exact ih hstep newRank hnew

end

/-! ## The edges of a graph -/

section
variable {ι : Type} [LinearOrder ι] {rows : List (Row ι)}

theorem length_allIds : (allIds rows).length = rows.length := by
  rw [allIds, Ranked.sorted, List.length_insertionSort, List.length_map]

theorem idx_lt {i : Nat} {c : ι} (h : Dict.get (idx rows) c = some i) : i < rows.length := by
  have hmem := Dict.mem_ofItems (Dict.mem_of_get h)
  have hlt := List.snd_lt_of_mem_zipIdx hmem
  rwa [length_allIds, Nat.add_zero] at hlt

theorem followed_lt {row : Row ι} {j : Nat} (hj : j ∈ followed rows row) : j < rows.length := by
  obtain ⟨c, -, hc⟩ := List.mem_filterMap.1 hj
  split at hc
  · cases hc
  · exact idx_lt hc

theorem length_addRow (outEdges : List (List Nat)) (row : Row ι) : (addRow rows outEdges row).length = outEdges.length := by
  unfold addRow
  split
  · rfl
  · exact List.length_modify _ _ _

theorem addRow_lt {out : List (List Nat)} (row : Row ι) (hout : ∀ callees ∈ out, ∀ j ∈ callees, j < rows.length) :
    ∀ callees ∈ addRow rows out row, ∀ j ∈ callees, j < rows.length := by
  unfold addRow
  split
  · exact hout
  · intro callees hc j hj
    obtain ⟨k, hk, rfl⟩ := List.getElem_of_mem hc
    rw [List.getElem_modify] at hj
    have hold := hout _ (List.getElem_mem (by simpa using hk))
    split at hj
    · rcases List.mem_append.1 (Ranked.mem_sorted.1 hj) with hj | hj
      · exact hold j hj
      · exact followed_lt hj
    · exact hold j hj

theorem outEdges_shape : (outEdges rows).length = rows.length ∧
    ∀ callees ∈ outEdges rows, ∀ j ∈ callees, j < rows.length := by
  have hrun : ∀ (todo : List (Row ι)) (out : List (List Nat)), out.length = rows.length →
      (∀ callees ∈ out, ∀ j ∈ callees, j < rows.length) → (todo.foldl (addRow rows) out).length = rows.length ∧
        ∀ callees ∈ todo.foldl (addRow rows) out, ∀ j ∈ callees, j < rows.length := by
    intro todo
    induction todo with
    | nil => exact fun out hlen hout => ⟨hlen, hout⟩
    | cons row todo ih => exact fun out hlen hout => ih _ ((length_addRow out row).trans hlen) (addRow_lt row hout)
  refine hrun rows _ List.length_replicate fun callees hc => ?_
  rw [List.eq_of_mem_replicate hc]
  exact nofun

omit [LinearOrder ι] in
theorem firstRank_mass {damping : ℚ} (h0 : 0 ≤ damping) (hne : rows ≠ []) : Mass damping rows.length (firstRank rows) := by
  have hpos : (0 : ℚ) < rows.length := by
    rw [Nat.cast_pos]
    exact List.length_pos_iff.2 hne
  refine ⟨List.length_replicate, ?_, fun r hr => ?_, fun r hr => ?_⟩
  · rw [firstRank, List.sum_replicate, nsmul_eq_mul]
    field_simp
  · rw [List.eq_of_mem_replicate hr]
    positivity
  · rw [List.eq_of_mem_replicate hr]
    gcongr
    linarith

/-- **Mass is conserved.** The ranks before the loop and after each iteration
add up to one, none is negative, and none is below `(1 - d) / n`; the scores the
computation returns are the last of them, one for each row. -/
theorem importance_mass {damping tol : ℚ} (h0 : 0 ≤ damping) (h1 : damping ≤ 1) (maxIter : Nat) (hne : rows ≠ []) :
    (∀ rank ∈ allRanks rows damping tol maxIter, Mass damping rows.length rank) ∧
      (computeImportance rows damping tol maxIter).map (·.1) = allIds rows ∧
      Mass damping rows.length ((computeImportance rows damping tol maxIter).map (·.2)) := by
  obtain ⟨hlen, hin⟩ := @outEdges_shape _ _ rows
  have hfirst := firstRank_mass h0 hne
  have hout : outEdges rows ≠ [] := by
    rw [← List.length_pos_iff, hlen]
    exact List.length_pos_iff.2 hne
  have hall : ∀ rank ∈ allRanks rows damping tol maxIter, Mass damping rows.length rank := by
    intro rank hrank
    rcases List.mem_cons.1 hrank with rfl | hrank
    · exact hfirst
    · have hmass := ranks_mass h0 h1 hout (by rwa [hlen]) maxIter (by rwa [hlen]) rank hrank
      rwa [hlen] at hmass
  have hlast : Mass damping rows.length ((allRanks rows damping tol maxIter).getLastD []) := by
    have hcons : allRanks rows damping tol maxIter ≠ [] := List.cons_ne_nil _ _
    rw [List.getLastD_eq_getLast?, List.getLast?_eq_some_getLast hcons]
    exact hall _ (List.getLast_mem hcons)
  have hsame : ∀ rank : List ℚ, rank.sum = 1 → normalised rank = rank := by
    intro rank hsum
    simp [normalised, hsum]
  rw [computeImportance, if_neg hne, hsame _ hlast.sum]
  refine ⟨hall, List.map_fst_zip ?_, ?_⟩
  · rw [length_allIds, hlast.length]
  · rw [List.map_snd_zip]
    · exact hlast
    · rw [length_allIds, hlast.length]

end

/-- A node that calls itself, one node twice and an unknown one, and a node that
calls none. -/
def smallGraph : List (Row Nat) := [⟨7, some [7, 9, 9, 4]⟩, ⟨9, none⟩]

theorem importance_mass_smallGraph :
    Mass (17 / 20) 2 ((computeImportance smallGraph (17 / 20) (1 / 1000000) 50).map (·.2)) :=
  (@importance_mass Nat _ smallGraph (17 / 20) (1 / 1000000) (by norm_num) (by norm_num) 50 (by simp [smallGraph])).2.2

end Cograph.Importance
