import Cograph.DocsTree
import Cograph.Joins
import Cograph.Occurrences
import Cograph.PrevalidateSound

/-!
# The documents' tree and their pages

Where each document keeps a slug of its own, the tree that mirrors the
directories is built, holds each document once below its own directories, and
leads to the page of each of its leaves.
-/

namespace Cograph.DocsTree

open CitationResolver (RepoDocument buildSlugMap)

/-! ## The text of a directory -/

/-- The parts of a directory, of which only a root has slashes. -/
def Named (ds : List Str) : Prop :=
  ∃ root rest, ds = root ++ rest ∧ (root = [] ∨ root = [['/']] ∨ root = [['/', '/']]) ∧
    ∀ p ∈ rest, p ≠ [] ∧ '/' ∉ p

/-- How the text of a directory begins: so many slashes, then parts without. -/
inductive Spelled : Nat → List Str → List Str → Prop
  | plain (rest) : Spelled 0 rest rest
  | root : Spelled 1 [] [['/']]
  | below {rest} : rest ≠ [] → Spelled 2 rest (['/'] :: rest)
  | doubled : Spelled 2 [] [['/', '/']]
  | belowDoubled {rest} : rest ≠ [] → Spelled 3 rest (['/', '/'] :: rest)

theorem Spelled.unique {n : Nat} {rest ds ds' : List Str} (h : Spelled n rest ds) (h' : Spelled n rest ds') : ds = ds' := by
  cases h with
  | plain => cases h' with | plain => rfl
  | root => cases h' with | root => rfl
  | below hne =>
    cases h' with
    | below => rfl
    | doubled => exact absurd rfl hne
  | doubled =>
    cases h' with
    | below hne => exact absurd rfl hne
    | doubled => rfl
  | belowDoubled => cases h' with | belowDoubled => rfl

theorem joinParts_cons (p : Str) {ds : List Str} (h : ds ≠ []) : joinParts (p :: ds) = p ++ '/' :: joinParts ds := by
  obtain ⟨d, ds, rfl⟩ := List.exists_cons_of_ne_nil h
  simp [joinParts, List.intercalate_cons_cons]

theorem joinParts_snoc {ds : List Str} (h : ds ≠ []) (p : Str) : joinParts (ds ++ [p]) = joinParts ds ++ '/' :: p := by
  unfold joinParts
  rw [Joins.intercalate_append h (by simp), List.intercalate_singleton]

theorem Named.spelled {ds : List Str} (h : Named ds) :
    ∃ n rest, Spelled n rest ds ∧ joinParts ds = List.replicate n '/' ++ joinParts rest ∧
      ∀ p ∈ rest, p ≠ [] ∧ '/' ∉ p := by
  obtain ⟨root, rest, rfl, hroot, hrest⟩ := h
  rcases hroot with rfl | rfl | rfl
  · exact ⟨0, rest, .plain rest, rfl, hrest⟩
  · by_cases hne : rest = []
    · subst hne
      exact ⟨1, [], .root, rfl, by simp⟩
    · refine ⟨2, rest, .below hne, ?_, hrest⟩
      rw [List.singleton_append, joinParts_cons _ hne]
      rfl
  · by_cases hne : rest = []
    · subst hne
      exact ⟨2, [], .doubled, rfl, by simp⟩
    · refine ⟨3, rest, .belowDoubled hne, ?_, hrest⟩
      rw [List.singleton_append, joinParts_cons _ hne]
      rfl

theorem joinParts_head {rest : List Str} (h : ∀ p ∈ rest, p ≠ [] ∧ '/' ∉ p) : (joinParts rest).head? ≠ some '/' := by
  cases rest with
  | nil => simp [joinParts]
  | cons p ps =>
    obtain ⟨hne, hslash⟩ := h p (by simp)
    obtain ⟨c, p, rfl⟩ := List.exists_cons_of_ne_nil hne
    unfold joinParts
    rw [Joins.intercalate_cons]
    simp only [List.cons_append, List.head?_cons, ne_eq, Option.some.injEq]
    rintro rfl
    exact hslash (by simp)

theorem slashes_inj {n m : Nat} {x y : Str} (hx : x.head? ≠ some '/') (hy : y.head? ≠ some '/')
    (h : List.replicate n '/' ++ x = List.replicate m '/' ++ y) : n = m ∧ x = y := by
  induction n generalizing m with
  | zero =>
    cases m with
    | zero => exact ⟨rfl, by simpa using h⟩
    | succ m =>
      rw [List.replicate_zero, List.nil_append] at h
      rw [h] at hx
      exact absurd rfl hx
  | succ n ih =>
    cases m with
    | zero =>
      rw [List.replicate_zero, List.nil_append] at h
      rw [← h] at hy
      exact absurd rfl hy
    | succ m =>
      rw [List.replicate_succ, List.replicate_succ, List.cons_append, List.cons_append, List.cons.injEq] at h
      obtain ⟨hn, hxy⟩ := ih h.2
      exact ⟨congrArg (· + 1) hn, hxy⟩

/-- Directories have different texts. -/
theorem joinParts_inj {ds es : List Str} (hd : Named ds) (he : Named es) (h : joinParts ds = joinParts es) : ds = es := by
  obtain ⟨n, rest, hspell, htext, hrest⟩ := hd.spelled
  obtain ⟨m, rest', hspell', htext', hrest'⟩ := he.spelled
  rw [htext, htext'] at h
  obtain ⟨rfl, hjoin⟩ := slashes_inj (joinParts_head hrest) (joinParts_head hrest') h
  have hone : ∀ {parts : List Str}, (∀ p ∈ parts, p ≠ [] ∧ '/' ∉ p) → parts ≠ [[]] := by
    rintro parts hparts rfl
    exact (hparts [] (by simp)).1 rfl
  have hsame : rest = rest' := Joins.intercalate_inj_of_ne (fun p hp => (hrest p hp).2) (fun p hp => (hrest' p hp).2)
    (hone hrest) (hone hrest') hjoin
  subst hsame
  exact hspell.unique hspell'

theorem joinParts_ne_nil {ds : List Str} (h : Named ds) (hne : ds ≠ []) : joinParts ds ≠ [] := by
  intro hnil
  exact hne (joinParts_inj h ⟨[], [], rfl, .inl rfl, by simp⟩ hnil)

theorem Named.before {ds es : List Str} (h : Named es) (hpre : ds <+: es) : Named ds := by
  obtain ⟨root, rest, rfl, hroot, hrest⟩ := h
  have hlen : root.length ≤ 1 := by rcases hroot with rfl | rfl | rfl <;> simp
  rw [List.prefix_iff_eq_take] at hpre
  rw [hpre, List.take_append]
  cases ds.length with
  | zero => exact ⟨[], [], by simp, .inl rfl, by simp⟩
  | succ k =>
    rw [List.take_of_length_le (by omega)]
    exact ⟨root, rest.take (k + 1 - root.length), rfl, hroot, fun p hp => hrest p (List.mem_of_mem_take hp)⟩

theorem named_pathParts (path : Str) : Named (pathParts path) := by
  refine ⟨pathRoot path, _, rfl, ?_, ?_⟩
  · unfold pathRoot
    split
    · exact .inl rfl
    · split
      · exact .inr (.inr rfl)
      · exact .inr (.inl rfl)
  · intro p hp
    obtain ⟨hin, hne⟩ := List.mem_filter.1 hp
    rw [List.splitOn_eq_splitOnP] at hin
    refine ⟨by simpa using (of_decide_eq_true hne).1, fun hslash => ?_⟩
    simpa using Occurs.splitOnP_mem p hin '/' hslash

/-- The directories a document is in, one below the other. -/
def dirsOf (doc : Document) : List Str := (pathParts doc.filePath).dropLast

theorem named_dirsOf (doc : Document) : Named (dirsOf doc) := (named_pathParts doc.filePath).before (List.dropLast_prefix _)

theorem parentDir_eq (doc : Document) : parentDir doc.filePath = joinParts (dirsOf doc) := by
  unfold parentDir dirsOf
  split
  · rfl
  · next hlen =>
    rw [List.dropLast_eq_take, Nat.sub_eq_zero_of_le (Nat.not_lt.1 hlen)]
    rfl

/-! ## The map of the directories -/

theorem entryOf_put_self (m : DirMap) (k : Str) (e : Dir) : entryOf (Dict.put m k e) k = e := by
  unfold entryOf
  rw [Dict.get_put_self]
  rfl

theorem entryOf_put_ne (m : DirMap) {k k' : Str} (e : Dir) (h : k ≠ k') : entryOf (Dict.put m k e) k' = entryOf m k' := by
  unfold entryOf
  rw [Dict.get_put_ne _ _ h]

theorem entryOf_put (m : DirMap) (k k' : Str) (e : Dir) :
    entryOf (Dict.put m k e) k' = if k = k' then e else entryOf m k' := by
  split
  · next h =>
    subst h
    exact entryOf_put_self m k e
  · next h => exact entryOf_put_ne m e h

theorem put_isSome (m : DirMap) (k k' : Str) (e : Dir) :
    (Dict.get (Dict.put m k e) k').isSome ↔ k = k' ∨ (Dict.get m k').isSome := by
  by_cases h : k = k'
  · subst h
    simp
  · simp [Dict.get_put_ne m e h, h]

theorem child_text {ds : List Str} {p : Str} (h : Named (ds ++ [p])) :
    (if joinParts ds ≠ [] then joinParts ds ++ '/' :: p else p) = joinParts (ds ++ [p]) := by
  by_cases hds : ds = []
  · subst hds
    simp [joinParts]
  · rw [if_pos (joinParts_ne_nil (h.before (List.prefix_append _ _)) hds), joinParts_snoc hds]

/-- What walking down some parts from a directory adds to the map. -/
structure Walked (m m' : DirMap) (ds parts : List Str) : Prop where
  docs : ∀ k, (entryOf m' k).docs = (entryOf m k).docs
  nodup : (∀ k, (entryOf m k).subdirs.Nodup) → ∀ k, (entryOf m' k).subdirs.Nodup
  subdirs : ∀ es, Named es → ∀ c, c ∈ (entryOf m' (joinParts es)).subdirs ↔
    c ∈ (entryOf m (joinParts es)).subdirs ∨
      ∃ p, ds <+: es ∧ es ++ [p] <+: ds ++ parts ∧ c = joinParts (es ++ [p])
  keys : ∀ k, (Dict.get m k).isSome → (Dict.get m' k).isSome
  reached : ∀ es, ds <+: es → es <+: ds ++ parts → es ≠ ds ++ parts → (Dict.get m' (joinParts es)).isSome

theorem addSubdir_docs (m : DirMap) (dir child k : Str) : (entryOf (addSubdir m dir child) k).docs = (entryOf m k).docs := by
  unfold addSubdir
  rw [entryOf_put]
  split
  · next h => rw [← h]
  · rfl

theorem mem_addSubdir (m : DirMap) (dir child k c : Str) :
    c ∈ (entryOf (addSubdir m dir child) k).subdirs ↔ c ∈ (entryOf m k).subdirs ∨ dir = k ∧ c = child := by
  unfold addSubdir
  rw [entryOf_put]
  by_cases hk : dir = k
  · subst hk
    rw [if_pos rfl]
    by_cases hin : child ∈ (entryOf m dir).subdirs
    · simp only [hin, if_true, true_and]
      exact ⟨.inl, fun h => h.elim id fun he => he ▸ hin⟩
    · simp [hin]
  · simp [hk]

theorem addSubdir_nodup {m : DirMap} (h : ∀ k, (entryOf m k).subdirs.Nodup) (dir child k : Str) :
    (entryOf (addSubdir m dir child) k).subdirs.Nodup := by
  unfold addSubdir
  rw [entryOf_put]
  split
  · dsimp only
    split
    · exact h dir
    · next hnew =>
      rw [List.nodup_append]
      refine ⟨h dir, List.nodup_singleton _, fun a ha b hb he => ?_⟩
      rw [List.mem_singleton.1 hb] at he
      exact hnew (he ▸ ha)
  · exact h k

/-- A directory on the way from another is that one, or below the next part. -/
theorem on_the_way {ds es parts : List Str} {part : Str} (hds : ds <+: es) (hes : es <+: ds ++ part :: parts) :
    es = ds ∨ ds ++ [part] <+: es := by
  by_cases hlen : es.length ≤ ds.length
  · exact .inl (hds.eq_of_length (Nat.le_antisymm hds.length_le hlen)).symm
  · have hnext : ds ++ [part] <+: ds ++ part :: parts := ⟨parts, by simp⟩
    refine .inr (List.prefix_of_prefix_length_le hnext hes ?_)
    rw [List.length_append, List.length_singleton]
    omega

theorem addDirs_walked (parts : List Str) : ∀ (m : DirMap) (ds : List Str), Named (ds ++ parts) →
    Walked m (addDirs m (joinParts ds) parts) ds parts := by
  induction parts with
  | nil =>
    intro m ds _
    refine ⟨fun _ => rfl, fun h => h, fun es _ c => ?_, fun _ h => h, fun es hds hes hne => ?_⟩
    · constructor
      · exact .inl
      · rintro (h | ⟨p, hds, hes, _⟩)
        · exact h
        · have hlen := hds.length_le
          have hlen' := hes.length_le
          simp only [List.append_nil, List.length_append, List.length_singleton] at hlen'
          omega
    · rw [List.append_nil] at hes hne
      exact absurd (hes.eq_of_length (Nat.le_antisymm hes.length_le hds.length_le)) hne
  | cons part parts ih =>
    intro m ds hnamed
    have hassoc : ds ++ part :: parts = (ds ++ [part]) ++ parts := by simp
    have hchild : Named (ds ++ [part]) := hnamed.before (by rw [hassoc]; exact List.prefix_append _ _)
    have hds : Named ds := hchild.before (List.prefix_append _ _)
    rw [hassoc] at hnamed
    have hwalk := ih (addSubdir m (joinParts ds) (joinParts (ds ++ [part]))) (ds ++ [part]) hnamed
    rw [addDirs, child_text hchild]
    refine ⟨?_, ?_, ?_, ?_, ?_⟩
    · intro k
      rw [hwalk.docs, addSubdir_docs]
    · intro h
      exact hwalk.nodup (addSubdir_nodup h _ _)
    · intro es hes c
      rw [hwalk.subdirs es hes, mem_addSubdir, hassoc]
      constructor
      · rintro ((h | ⟨htext, rfl⟩) | ⟨p, hpre, hes', rfl⟩)
        · exact .inl h
        · obtain rfl := joinParts_inj hds hes htext
          exact .inr ⟨part, List.prefix_rfl, List.prefix_append _ _, rfl⟩
        · exact .inr ⟨p, (List.prefix_append _ _).trans hpre, hes', rfl⟩
      · rintro (h | ⟨p, hpre, hes', rfl⟩)
        · exact .inl (.inl h)
        · rw [← hassoc] at hes'
          rcases on_the_way hpre ((List.prefix_append _ _).trans hes') with rfl | hbelow
          · rw [List.prefix_append_right_inj, List.cons_prefix_cons] at hes'
            rw [hes'.1]
            exact .inl (.inr ⟨rfl, rfl⟩)
          · rw [hassoc] at hes'
            exact .inr ⟨p, hbelow, hes', rfl⟩
    · intro k hk
      refine hwalk.keys k ?_
      rw [addSubdir, put_isSome]
      exact .inr hk
    · intro es hpre hes hne
      rcases on_the_way hpre hes with rfl | hbelow
      · refine hwalk.keys _ ?_
        rw [addSubdir, put_isSome]
        exact .inl rfl
      · rw [hassoc] at hes hne
        exact hwalk.reached es hbelow hes hne

/-- What the map holds of each directory. -/
structure Mapped (documents : List Document) (m : DirMap) : Prop where
  docs : ∀ es, Named es → (entryOf m (joinParts es)).docs = documents.filter fun d => dirsOf d = es
  nodup : ∀ k, (entryOf m k).subdirs.Nodup
  subdirs : ∀ es, Named es → ∀ c, c ∈ (entryOf m (joinParts es)).subdirs ↔
    ∃ d ∈ documents, ∃ p, es ++ [p] <+: dirsOf d ∧ c = joinParts (es ++ [p])
  keys : ∀ es, (es = [] ∨ ∃ d ∈ documents, es <+: dirsOf d) → (Dict.get m (joinParts es)).isSome

theorem mapped_nil : Mapped [] [([], Dir.empty)] := by
  have hempty : ∀ k, entryOf [([], Dir.empty)] k = Dir.empty := by
    intro k
    unfold entryOf
    rw [Dict.get_cons]
    split <;> rfl
  refine ⟨fun es _ => ?_, fun k => ?_, fun es _ c => ?_, fun es hes => ?_⟩
  · rw [hempty]
    rfl
  · rw [hempty]
    exact List.nodup_nil
  · rw [hempty]
    simp [Dir.empty]
  · rcases hes with rfl | ⟨d, hd, -⟩
    · rfl
    · cases hd

theorem mapped_snoc {documents : List Document} {m : DirMap} (h : Mapped documents m) (doc : Document) :
    Mapped (documents ++ [doc]) (addDoc m doc) := by
  have hwalk := addDirs_walked (dirsOf doc) m [] (by simpa using named_dirsOf doc)
  have hpath : (pathParts doc.filePath).dropLast = dirsOf doc := rfl
  rw [show joinParts [] = [] from rfl] at hwalk
  refine ⟨fun es hes => ?_, fun k => ?_, fun es hes c => ?_, fun es hes => ?_⟩
  · unfold addDoc
    dsimp only
    rw [hpath, parentDir_eq, entryOf_put, List.filter_append, ← h.docs es hes, ← hwalk.docs (joinParts es)]
    by_cases heq : dirsOf doc = es
    · subst heq
      simp
    · have htext : joinParts (dirsOf doc) ≠ joinParts es := fun ht => heq (joinParts_inj (named_dirsOf doc) hes ht)
      simp [htext, heq]
  · have hall := hwalk.nodup h.nodup
    unfold addDoc
    dsimp only
    rw [hpath, parentDir_eq, entryOf_put]
    split
    · exact hall _
    · exact hall k
  · have hsame : (entryOf (addDoc m doc) (joinParts es)).subdirs =
        (entryOf (addDirs m [] (dirsOf doc)) (joinParts es)).subdirs := by
      unfold addDoc
      dsimp only
      rw [hpath, parentDir_eq, entryOf_put]
      split
      · next heq => rw [heq]
      · rfl
    rw [hsame, hwalk.subdirs es hes, h.subdirs es hes]
    simp only [List.nil_append, List.nil_prefix, true_and]
    constructor
    · rintro (⟨d, hd, hrest⟩ | hnew)
      · exact ⟨d, List.mem_append_left _ hd, hrest⟩
      · exact ⟨doc, by simp, hnew⟩
    · rintro ⟨d, hd, hrest⟩
      rcases List.mem_append.1 hd with hd | hd
      · exact .inl ⟨d, hd, hrest⟩
      · rw [List.mem_singleton.1 hd] at hrest
        exact .inr hrest
  · unfold addDoc
    dsimp only
    rw [hpath, parentDir_eq, put_isSome]
    rcases hes with rfl | ⟨d, hd, hes⟩
    · exact .inr (hwalk.keys _ (h.keys [] (.inl rfl)))
    · rcases List.mem_append.1 hd with hd | hd
      · exact .inr (hwalk.keys _ (h.keys es (.inr ⟨d, hd, hes⟩)))
      · rw [List.mem_singleton.1 hd] at hes
        by_cases heq : es = dirsOf doc
        · rw [heq]
          exact .inl rfl
        · exact .inr (hwalk.reached es List.nil_prefix hes heq)

theorem mapped_dirMap (documents : List Document) : Mapped documents (dirMap documents) := by
  induction documents using List.reverseRecOn with
  | nil => exact mapped_nil
  | append_singleton documents doc ih =>
    unfold dirMap at ih ⊢
    rw [List.foldl_append]
    exact mapped_snoc ih doc

/-! ## Trees -/

/-- A group node, by its id and its slug. -/
abbrev Group := Nat × Str

mutual

/-- The leaves of a tree, each with the groups it is in. -/
def leavesIn : List Group → WikiTreeNode → List (List Group × TreeEntry)
  | groups, .mk entry children =>
    if entry.filePath.isSome then [(groups, entry)] else leavesOf (groups ++ [(entry.id, entry.slug)]) children

def leavesOf : List Group → List WikiTreeNode → List (List Group × TreeEntry)
  | _, [] => []
  | groups, n :: ns => leavesIn groups n ++ leavesOf groups ns

end

/-- Siblings are numbered from zero and name the node they are below as their
parent, and so on down. -/
inductive Ordered : Option Nat → List WikiTreeNode → Prop
  | intro {parent : Option Nat} {nodes : List WikiTreeNode} :
      nodes.map (·.entry.sortOrder) = List.range nodes.length → (∀ n ∈ nodes, n.entry.parentId = parent) →
      (∀ n ∈ nodes, Ordered (some n.entry.id) n.children) → Ordered parent nodes

theorem leavesOf_append (groups : List Group) (xs ys : List WikiTreeNode) :
    leavesOf groups (xs ++ ys) = leavesOf groups xs ++ leavesOf groups ys := by
  induction xs with
  | nil => simp [leavesOf]
  | cons x xs ih => simp [leavesOf, ih]

theorem leavesOf_leaves (groups : List Group) {es : List TreeEntry} (h : ∀ e ∈ es, e.filePath.isSome) :
    leavesOf groups (es.map fun e => .mk e []) = es.map fun e => (groups, e) := by
  induction es with
  | nil => simp [leavesOf]
  | cons e es ih =>
    rw [List.map_cons, leavesOf, leavesIn, if_pos (h e (by simp)), ih fun x hx => h x (List.mem_cons_of_mem _ hx)]
    rfl

theorem mapM_map {α β : Type} {f : α → Except TreeError β} {g : α → β} {xs : List α} (h : ∀ x ∈ xs, f x = .ok (g x)) :
    xs.mapM f = .ok (xs.map g) := by
  induction xs with
  | nil => rfl
  | cons x xs ih =>
    rw [List.mapM_cons, h x (by simp), ih fun y hy => h y (List.mem_cons_of_mem _ hy)]
    rfl

/-- What is built with enough fuel of each is built of all. -/
theorem mapM_fuel {α β : Type} {f : Nat → α → Except TreeError β} {R : α → β → Prop} {xs : List α} {n : Nat}
    (h : ∀ x ∈ xs, ∃ y, (∀ fuel, n ≤ fuel → f fuel x = .ok y) ∧ R x y) :
    ∃ ys, (∀ fuel, n ≤ fuel → xs.mapM (f fuel) = .ok ys) ∧ List.Forall₂ R xs ys := by
  induction xs with
  | nil => exact ⟨[], fun _ _ => rfl, .nil⟩
  | cons x xs ih =>
    obtain ⟨y, hy, hR⟩ := h x (by simp)
    obtain ⟨ys, hys, hall⟩ := ih fun z hz => h z (List.mem_cons_of_mem _ hz)
    refine ⟨y :: ys, fun fuel hfuel => ?_, .cons hR hall⟩
    rw [List.mapM_cons, hy fuel hfuel, hys fuel hfuel]
    rfl

/-! ## Lists in parts -/

section
variable {α γ : Type}

theorem flatMap_filter_cons (q : γ → α → Bool) (cs : List γ) (x : α) (xs : List α) :
    (cs.flatMap fun c => (x :: xs).filter (q c)).Perm
      ((cs.filter (q · x)).map (fun _ => x) ++ cs.flatMap fun c => xs.filter (q c)) := by
  induction cs with
  | nil => exact .refl _
  | cons c cs ih =>
    rw [List.flatMap_cons, List.flatMap_cons, List.filter_cons, List.filter_cons]
    by_cases hq : q c x = true
    · rw [if_pos hq, if_pos hq, List.map_cons, List.cons_append, List.cons_append]
      refine .cons x ((ih.append_left _).trans ?_)
      rw [← List.append_assoc, ← List.append_assoc]
      exact List.perm_append_comm.append_right _
    · rw [if_neg hq, if_neg hq]
      refine (ih.append_left _).trans ?_
      rw [← List.append_assoc, ← List.append_assoc]
      exact List.perm_append_comm.append_right _

/-- A list whose members each are of one part or of one class is those of the
part and those of the classes. -/
theorem perm_parts {p : α → Bool} {q : γ → α → Bool} {cs : List γ} {xs : List α}
    (h : ∀ x ∈ xs, (cs.filter (q · x)).length = if p x then 0 else 1) :
    xs.Perm (xs.filter p ++ cs.flatMap fun c => xs.filter (q c)) := by
  induction xs with
  | nil => simp
  | cons x xs ih =>
    have hrest := ih fun y hy => h y (List.mem_cons_of_mem _ hy)
    have hclasses := flatMap_filter_cons q cs x xs
    have hx := h x (by simp)
    refine .trans ?_ (hclasses.symm.append_left _)
    rw [List.filter_cons]
    by_cases hp : p x = true
    · rw [if_pos hp] at hx ⊢
      rw [List.length_eq_zero_iff.1 hx]
      exact hrest.cons x
    · rw [if_neg hp] at hx ⊢
      obtain ⟨c, hc⟩ := List.length_eq_one_iff.1 hx
      rw [hc, List.map_singleton, List.singleton_append]
      exact (hrest.cons x).trans List.perm_middle.symm

end

/-! ## Building a directory -/

section
variable (P : Py) (repositoryId : Str) (idToSlug : Dict.Items Nat Str)

def slugOf (doc : Document) : Str := (Dict.get idToSlug doc.id).getD []

def leafEntry (parentId : Option Nat) (doc : Document) (sortOrder : Nat) : TreeEntry where
  id := doc.id
  title := docTitle P doc (slugOf idToSlug doc)
  slug := slugOf idToSlug doc
  docType := (inferDocType P doc.filePath).toOption.getD []
  sortOrder := sortOrder
  parentId := parentId
  filePath := some doc.filePath

/-- The parent of what is in a directory. -/
def parentOf (ds : List Str) : Option Nat := if ds = [] then none else some (groupId P repositoryId (joinParts ds))

/-- The groups of the directories from one down some parts. -/
def groupsFrom : List Str → List Str → List Group
  | _, [] => []
  | ds, p :: ps =>
    (groupId P repositoryId (joinParts (ds ++ [p])), "_dir-".toList ++ joinParts (ds ++ [p])) :: groupsFrom (ds ++ [p]) ps

/-- Where a leaf stands: its groups, its document's id and path, its slug and
its parent. -/
abbrev Spot := List Group × Nat × Option Str × Str × Option Nat

def place (x : List Group × TreeEntry) : Spot := (x.1, x.2.id, x.2.filePath, x.2.slug, x.2.parentId)

/-- Where a document stands below a directory. -/
def spot (ds : List Str) (groups : List Group) (doc : Document) : Spot :=
  (groups ++ groupsFrom P repositoryId ds ((dirsOf doc).drop ds.length), doc.id, some doc.filePath,
    slugOf idToSlug doc, parentOf P repositoryId (dirsOf doc))

theorem inferDocType_ok {path : Str} (h : pathParts path ≠ []) :
    inferDocType P path = .ok ((inferDocType P path).toOption.getD []) := by
  unfold inferDocType
  split
  · next hnil => exact absurd hnil h
  · rfl
  · rfl

variable {P repositoryId idToSlug}

theorem leafNode_ok {doc : Document} (hslug : (Dict.get idToSlug doc.id).isSome) (hparts : pathParts doc.filePath ≠ [])
    (parentId : Option Nat) (sortOrder : Nat) :
    leafNode P idToSlug doc parentId sortOrder = .ok (.mk (leafEntry P idToSlug parentId doc sortOrder) []) := by
  obtain ⟨slug, hget⟩ := Option.isSome_iff_exists.1 hslug
  unfold leafNode
  rw [hget]
  dsimp only
  rw [inferDocType_ok P hparts]
  unfold leafEntry slugOf
  rw [hget]
  rfl

theorem leafNodes_ok {docs : List Document} (hslugs : ∀ d ∈ docs, (Dict.get idToSlug d.id).isSome)
    (hparts : ∀ d ∈ docs, pathParts d.filePath ≠ []) (parentId : Option Nat) (i : Nat) :
    ((docs.zipIdx i).mapM fun x => leafNode P idToSlug x.1 parentId x.2) =
      .ok (((docs.zipIdx i).map fun x => leafEntry P idToSlug parentId x.1 x.2).map fun e => .mk e []) := by
  rw [List.map_map]
  refine mapM_map fun x hx => ?_
  have hin : x.1 ∈ docs := List.fst_mem_of_mem_zipIdx hx
  exact leafNode_ok (hslugs _ hin) (hparts _ hin) parentId x.2

theorem leaves_place (groups : List Group) (docs : List Document) (parentId : Option Nat) (i : Nat) :
    (leavesOf groups (((docs.zipIdx i).map fun x => leafEntry P idToSlug parentId x.1 x.2).map fun e => .mk e [])).map
        place =
      docs.map fun d => (groups, d.id, some d.filePath, slugOf idToSlug d, parentId) := by
  rw [leavesOf_leaves groups (by
    intro e he
    obtain ⟨x, -, rfl⟩ := List.mem_map.1 he
    rfl), List.map_map, List.map_map]
  conv_rhs => rw [← List.zipIdx_map_fst i docs, List.map_map]
  rfl

/-- The directory below a given one that a document is in. -/
def nextDir (ds : List Str) (doc : Document) : Option Str :=
  if ds <+: dirsOf doc ∧ ds ≠ dirsOf doc then some (joinParts ((dirsOf doc).take (ds.length + 1))) else none

theorem nextDir_iff {ds : List Str} {p : Str} {doc : Document} (h : Named (ds ++ [p])) :
    nextDir ds doc = some (joinParts (ds ++ [p])) ↔ ds ++ [p] <+: dirsOf doc := by
  unfold nextDir
  constructor
  · intro hsome
    split at hsome
    · have htake := joinParts_inj ((named_dirsOf doc).before (List.take_prefix _ _)) h (Option.some.inj hsome)
      rw [← htake]
      exact List.take_prefix _ _
    · cases hsome
  · intro hpre
    have hlen := hpre.length_le
    rw [List.length_append, List.length_singleton] at hlen
    have hne : ds ≠ dirsOf doc := by
      intro heq
      rw [← heq] at hlen
      omega
    rw [if_pos ⟨(List.prefix_append _ _).trans hpre, hne⟩, List.prefix_iff_eq_take.1 hpre]
    simp

variable (P repositoryId idToSlug) in
/-- What a group node of a directory is to hold. -/
structure GroupHolds (documents : List Document) (ds : List Str) (x : Str × Nat) (n : WikiTreeNode) : Prop where
  entry : n.entry = groupEntry P repositoryId x.1 (parentOf P repositoryId ds) x.2
  ordered : Ordered (some n.entry.id) n.children
  leaves : ∀ groups, ((leavesIn groups n).map place).Perm
    ((documents.filter fun d => nextDir ds d = some x.1).map (spot P repositoryId idToSlug ds groups))

theorem groups_leaves {documents : List Document} {ds : List Str} {xs : List (Str × Nat)} {ns : List WikiTreeNode}
    (h : List.Forall₂ (GroupHolds P repositoryId idToSlug documents ds) xs ns) (groups : List Group) :
    ((leavesOf groups ns).map place).Perm
      (((xs.map (·.1)).flatMap fun c => documents.filter fun d => nextDir ds d = some c).map
        (spot P repositoryId idToSlug ds groups)) := by
  induction h with
  | nil => simp [leavesOf]
  | cons hx _ ih =>
    rw [leavesOf, List.map_append, List.map_cons, List.flatMap_cons, List.map_append]
    exact (hx.leaves groups).append ih

theorem groups_order {documents : List Document} {ds : List Str} {xs : List (Str × Nat)} {ns : List WikiTreeNode}
    (h : List.Forall₂ (GroupHolds P repositoryId idToSlug documents ds) xs ns) :
    ns.map (·.entry.sortOrder) = xs.map (·.2) ∧ (∀ n ∈ ns, n.entry.parentId = parentOf P repositoryId ds) ∧
      ∀ n ∈ ns, Ordered (some n.entry.id) n.children := by
  induction h with
  | nil => simp
  | cons hx _ ih =>
    obtain ⟨horder, hparent, hbelow⟩ := ih
    refine ⟨?_, ?_, ?_⟩
    · rw [List.map_cons, List.map_cons, horder, hx.entry]
      rfl
    · rintro n (_ | ⟨_, hn⟩)
      · rw [hx.entry]
        rfl
      · exact hparent n hn
    · rintro n (_ | ⟨_, hn⟩)
      · exact hx.ordered
      · exact hbelow n hn

/-- The spots below a directory, seen from the one above it. -/
theorem spot_below {ds : List Str} {p : Str} {doc : Document} (h : ds ++ [p] <+: dirsOf doc) (groups : List Group) :
    spot P repositoryId idToSlug (ds ++ [p])
        (groups ++ [(groupId P repositoryId (joinParts (ds ++ [p])), "_dir-".toList ++ joinParts (ds ++ [p]))]) doc =
      spot P repositoryId idToSlug ds groups doc := by
  obtain ⟨t, ht⟩ := h
  unfold spot
  rw [← ht]
  simp [groupsFrom]

/-- The node that is built for a directory below another one. -/
theorem group_holds {documents : List Document} {ds : List Str} {p : Str} (hnamed : Named (ds ++ [p])) {i : Nat}
    {children : List WikiTreeNode} (hordered : Ordered (parentOf P repositoryId (ds ++ [p])) children)
    (hleaves : ∀ groups, ((leavesOf groups children).map place).Perm
      ((documents.filter fun d => ds ++ [p] <+: dirsOf d).map (spot P repositoryId idToSlug (ds ++ [p]) groups))) :
    GroupHolds P repositoryId idToSlug documents ds (joinParts (ds ++ [p]), i)
      (.mk (groupEntry P repositoryId (joinParts (ds ++ [p])) (parentOf P repositoryId ds) i) children) where
  entry := rfl
  ordered := by
    unfold parentOf at hordered
    rw [if_neg (by simp)] at hordered
    exact hordered
  leaves groups := by
    rw [leavesIn, if_neg (by simp [groupEntry])]
    refine (hleaves _).trans ?_
    rw [List.filter_congr fun d _ => decide_eq_decide.2 (nextDir_iff hnamed).symm]
    refine .of_eq (List.map_congr_left fun d hd => ?_)
    exact spot_below ((nextDir_iff hnamed).1 (by simpa using (List.mem_filter.1 hd).2)) groups

theorem ordered_leaf (id : Nat) : Ordered (some id) [] := .intro rfl (by simp) (by simp)

/-- Documents and groups as they stand in a directory are numbered through. -/
theorem ordered_parts {documents first : List Document} (rest : List Document) {subdirs : List Str} {ds : List Str}
    {groups : List WikiTreeNode}
    (hgroups : List.Forall₂ (GroupHolds P repositoryId idToSlug documents ds) (subdirs.zipIdx first.length) groups) :
    Ordered (parentOf P repositoryId ds)
      ((((first.zipIdx 0).map fun x => leafEntry P idToSlug (parentOf P repositoryId ds) x.1 x.2).map fun e => .mk e []) ++
        groups ++
        (((rest.zipIdx (first.length + subdirs.length)).map
          fun x => leafEntry P idToSlug (parentOf P repositoryId ds) x.1 x.2).map fun e => .mk e [])) := by
  obtain ⟨horder, hparent, hbelow⟩ := groups_order hgroups
  have hlen : groups.length = subdirs.length := by
    rw [← hgroups.length_eq, List.length_zipIdx]
  have hleaf : ∀ (docs : List Document) (i : Nat), (((docs.zipIdx i).map
      fun x => leafEntry P idToSlug (parentOf P repositoryId ds) x.1 x.2).map fun e => WikiTreeNode.mk e []).map
        (·.entry.sortOrder) = List.range' i docs.length := by
    intro docs i
    rw [List.map_map, List.map_map, ← List.zipIdx_map_snd i docs]
    rfl
  have hnode : ∀ (docs : List Document) (i : Nat), ∀ n ∈ ((docs.zipIdx i).map
      fun x => leafEntry P idToSlug (parentOf P repositoryId ds) x.1 x.2).map fun e => WikiTreeNode.mk e [],
      n.entry.parentId = parentOf P repositoryId ds ∧ n.children = [] := by
    intro docs i n hn
    rw [List.map_map] at hn
    obtain ⟨x, -, rfl⟩ := List.mem_map.1 hn
    exact ⟨rfl, rfl⟩
  refine .intro ?_ ?_ ?_
  · rw [List.map_append, List.map_append, hleaf, hleaf, horder, List.zipIdx_map_snd]
    simp only [List.length_append, List.length_map, List.length_zipIdx, hlen]
    rw [List.range_eq_range', ← List.range'_append_1, ← List.range'_append_1, Nat.zero_add, Nat.zero_add]
  · intro n hn
    simp only [List.mem_append] at hn
    rcases hn with (hn | hn) | hn
    · exact (hnode _ _ n hn).1
    · exact hparent n hn
    · exact (hnode _ _ n hn).1
  · intro n hn
    simp only [List.mem_append] at hn
    rcases hn with (hn | hn) | hn
    · rw [(hnode _ _ n hn).2]
      exact ordered_leaf _
    · exact hbelow n hn
    · rw [(hnode _ _ n hn).2]
      exact ordered_leaf _

/-- The documents below a directory are its own, and those below each of its
directories. -/
theorem below_parts {documents : List Document} {ds : List Str} {subdirs : List Str} (hnodup : subdirs.Nodup)
    (hsub : ∀ c, c ∈ subdirs ↔ ∃ d ∈ documents, ∃ p, ds ++ [p] <+: dirsOf d ∧ c = joinParts (ds ++ [p])) :
    (documents.filter fun d => ds <+: dirsOf d).Perm
      ((documents.filter fun d => dirsOf d = ds) ++
        subdirs.flatMap fun c => documents.filter fun d => nextDir ds d = some c) := by
  have hclass : ∀ d ∈ documents.filter fun d => ds <+: dirsOf d,
      (subdirs.filter fun c => nextDir ds d = some c).length = if dirsOf d = ds then 0 else 1 := by
    intro d hd
    rw [List.mem_filter, decide_eq_true_eq] at hd
    by_cases heq : dirsOf d = ds
    · have hnone : nextDir ds d = none := if_neg fun h => h.2 heq.symm
      simp [heq, hnone]
    · obtain ⟨hin, t, ht⟩ := hd
      obtain ⟨p, t, rfl⟩ := List.exists_cons_of_ne_nil fun hnil : t = [] => heq (by rw [← ht, hnil, List.append_nil])
      have hpre : ds ++ [p] <+: dirsOf d := ⟨t, by rw [← ht]; simp⟩
      have hnext := (nextDir_iff ((named_dirsOf d).before hpre)).2 hpre
      have hmem : joinParts (ds ++ [p]) ∈ subdirs := (hsub _).2 ⟨d, hin, p, hpre, rfl⟩
      rw [if_neg heq, hnext]
      simp only [Option.some.injEq]
      rw [← List.countP_eq_length_filter]
      have hcount := List.count_eq_one_of_mem hnodup hmem
      rw [List.count] at hcount
      rw [← hcount]
      refine List.countP_congr fun c _ => ?_
      rw [decide_eq_true_eq, beq_iff_eq]
      exact eq_comm
  have hparts : (documents.filter fun d => ds <+: dirsOf d).Perm
      (((documents.filter fun d => ds <+: dirsOf d).filter fun d => dirsOf d = ds) ++
        subdirs.flatMap fun c => (documents.filter fun d => ds <+: dirsOf d).filter fun d => nextDir ds d = some c) := by
    refine perm_parts fun d hd => ?_
    rw [hclass d hd]
    by_cases heq : dirsOf d = ds
    · rw [if_pos heq, if_pos (decide_eq_true heq)]
    · rw [if_neg heq, if_neg (by simpa using heq)]
  rw [List.filter_filter] at hparts
  refine hparts.trans (.of_eq ?_)
  congr 1
  · refine List.filter_congr fun d _ => ?_
    by_cases heq : dirsOf d = ds
    · simp [heq]
    · simp [heq]
  · refine List.flatMap_congr fun c _ => ?_
    rw [List.filter_filter]
    refine List.filter_congr fun d _ => ?_
    by_cases hnext : nextDir ds d = some c
    · have hpre : ds <+: dirsOf d := by
        unfold nextDir at hnext
        split at hnext
        · next h => exact h.1
        · cases hnext
      simp [hnext, hpre]
    · simp [hnext]

/-- One directory is built from those below it. -/
theorem build_step {documents : List Document} (hslugs : ∀ d ∈ documents, (Dict.get idToSlug d.id).isSome)
    (hparts : ∀ d ∈ documents, pathParts d.filePath ≠ []) {ds : List Str} (hnamed : Named ds)
    (hreached : ds = [] ∨ ∃ d ∈ documents, ds <+: dirsOf d) {m : Nat}
    (hbelow : ∀ c ∈ (entryOf (dirMap documents) (joinParts ds)).subdirs, ∃ p ns, Named (ds ++ [p]) ∧
      c = joinParts (ds ++ [p]) ∧
      (∀ fuel, m ≤ fuel → buildDirChildren P (dirMap documents) idToSlug repositoryId fuel (joinParts (ds ++ [p]))
        (parentOf P repositoryId (ds ++ [p])) = .ok ns) ∧ Ordered (parentOf P repositoryId (ds ++ [p])) ns ∧
      ∀ groups, ((leavesOf groups ns).map place).Perm
        ((documents.filter fun d => ds ++ [p] <+: dirsOf d).map (spot P repositoryId idToSlug (ds ++ [p]) groups))) :
    ∃ ns, (∀ fuel, m + 1 ≤ fuel → buildDirChildren P (dirMap documents) idToSlug repositoryId fuel (joinParts ds)
        (parentOf P repositoryId ds) = .ok ns) ∧ Ordered (parentOf P repositoryId ds) ns ∧
      ∀ groups, ((leavesOf groups ns).map place).Perm
        ((documents.filter fun d => ds <+: dirsOf d).map (spot P repositoryId idToSlug ds groups)) := by
  have hmap := mapped_dirMap documents
  obtain ⟨e, he⟩ := Option.isSome_iff_exists.1 (hmap.keys ds hreached)
  have hentry : entryOf (dirMap documents) (joinParts ds) = e := by
    unfold entryOf
    rw [he]
    rfl
  have hdocs := hmap.docs ds hnamed
  have hnodup := hmap.nodup (joinParts ds)
  have hsub := hmap.subdirs ds hnamed
  rw [hentry] at hdocs hnodup hsub hbelow
  have hsorted : (e.subdirs.insertionSort fun a b => ¬b < a).Perm e.subdirs := List.perm_insertionSort _ _
  have hnamedocs : (byName P e.docs).Perm e.docs := List.perm_insertionSort _ _
  have hin : ∀ d ∈ byName P e.docs, d ∈ documents := by
    intro d hd
    have hmem := hnamedocs.subset hd
    rw [hdocs] at hmem
    exact (List.mem_filter.1 hmem).1
  generalize hsubdirs : (e.subdirs.insertionSort fun a b => ¬b < a) = subdirs at hsorted
  generalize hfirst : (byName P e.docs).filter (pinned P) = first
  generalize hrest : ((byName P e.docs).filter fun d => ¬pinned P d) = rest
  have hall : (first ++ rest).Perm (documents.filter fun d => dirsOf d = ds) := by
    rw [← hfirst, ← hrest, ← hdocs]
    refine .trans ?_ hnamedocs
    simpa using List.filter_append_perm (pinned P) (byName P e.docs)
  have hdocument : ∀ d ∈ first ++ rest, d ∈ documents := fun d hd => (List.mem_filter.1 (hall.subset hd)).1
  obtain ⟨gs, hgs, hholds⟩ : ∃ gs, (∀ fuel, m ≤ fuel → ((subdirs.zipIdx first.length).mapM fun x => do
      let children ← buildDirChildren P (dirMap documents) idToSlug repositoryId fuel x.1
        (some (groupId P repositoryId x.1))
      return WikiTreeNode.mk (groupEntry P repositoryId x.1 (parentOf P repositoryId ds) x.2) children) = .ok gs) ∧
      List.Forall₂ (GroupHolds P repositoryId idToSlug documents ds) (subdirs.zipIdx first.length) gs := by
    refine mapM_fuel fun x hx => ?_
    obtain ⟨c, i⟩ := x
    obtain ⟨p, ns, hchild, rfl, hns, hordered, hleaves⟩ := hbelow c (hsorted.subset (List.fst_mem_of_mem_zipIdx hx))
    refine ⟨_, fun fuel hfuel => ?_, group_holds hchild hordered hleaves⟩
    have hbuilt := hns fuel hfuel
    rw [parentOf, if_neg (by simp)] at hbuilt
    dsimp only
    rw [hbuilt]
    rfl
  refine ⟨_, fun fuel hfuel => ?_, ordered_parts rest hholds, fun groups => ?_⟩
  · obtain ⟨k, rfl⟩ := Nat.exists_eq_add_of_le' (Nat.lt_of_lt_of_le (Nat.succ_pos m) hfuel)
    rw [buildDirChildren, he]
    dsimp only
    rw [hsubdirs, hfirst, hrest,
      leafNodes_ok (fun d hd => hslugs d (hdocument d (List.mem_append_left _ hd)))
        (fun d hd => hparts d (hdocument d (List.mem_append_left _ hd))),
      leafNodes_ok (fun d hd => hslugs d (hdocument d (List.mem_append_right _ hd)))
        (fun d hd => hparts d (hdocument d (List.mem_append_right _ hd)))]
    have hgroups := hgs k (Nat.le_of_succ_le_succ hfuel)
    simp only [bind, Except.bind] at hgroups ⊢
    rw [hgroups]
    rfl
  · rw [leavesOf_append, leavesOf_append, List.map_append, List.map_append, leaves_place, leaves_place]
    have hhere : ∀ d ∈ first ++ rest, (groups, d.id, some d.filePath, slugOf idToSlug d, parentOf P repositoryId ds) =
        spot P repositoryId idToSlug ds groups d := by
      intro d hd
      have hds : dirsOf d = ds := by simpa using (List.mem_filter.1 (hall.subset hd)).2
      unfold spot
      rw [hds, List.drop_length]
      simp [groupsFrom]
    have hgroups := groups_leaves hholds groups
    rw [List.zipIdx_map_fst] at hgroups
    have hplaces : ((first ++ rest).map fun d => (groups, d.id, some d.filePath, slugOf idToSlug d,
        parentOf P repositoryId ds)).Perm
        ((documents.filter fun d => dirsOf d = ds).map (spot P repositoryId idToSlug ds groups)) :=
      (List.Perm.of_eq (List.map_congr_left hhere)).trans (hall.map _)
    have hbelowAll := (below_parts (hsorted.nodup_iff.2 hnodup) fun c => hsorted.mem_iff.trans (hsub c)).map
      (spot P repositoryId idToSlug ds groups)
    rw [List.map_append] at hplaces
    rw [List.map_append] at hbelowAll
    refine .trans ?_ hbelowAll.symm
    refine .trans ?_ (hplaces.append hgroups)
    rw [List.append_assoc, List.append_assoc]
    exact List.perm_append_comm.append_left _

/-- A directory is built, with enough fuel for the directories below it: its
nodes are in order, and its leaves are the documents below it where they belong. -/
theorem build_dir {documents : List Document} (hslugs : ∀ d ∈ documents, (Dict.get idToSlug d.id).isSome)
    (hparts : ∀ d ∈ documents, pathParts d.filePath ≠ []) (m : Nat) : ∀ ds, Named ds →
    (ds = [] ∨ ∃ d ∈ documents, ds <+: dirsOf d) →
    (∀ d ∈ documents, ds <+: dirsOf d → (dirsOf d).length ≤ ds.length + m) →
    ∃ ns, (∀ fuel, m + 1 ≤ fuel → buildDirChildren P (dirMap documents) idToSlug repositoryId fuel (joinParts ds)
        (parentOf P repositoryId ds) = .ok ns) ∧ Ordered (parentOf P repositoryId ds) ns ∧
      ∀ groups, ((leavesOf groups ns).map place).Perm
        ((documents.filter fun d => ds <+: dirsOf d).map (spot P repositoryId idToSlug ds groups)) := by
  induction m with
  | zero =>
    intro ds hnamed hreached hdepth
    refine build_step hslugs hparts hnamed hreached fun c hc => ?_
    obtain ⟨d, hd, p, hpre, rfl⟩ := ((mapped_dirMap documents).subdirs ds hnamed c).1 hc
    have hlen := hpre.length_le
    have hlow := hdepth d hd ((List.prefix_append _ _).trans hpre)
    rw [List.length_append, List.length_singleton] at hlen
    omega
  | succ m ih =>
    intro ds hnamed hreached hdepth
    refine build_step hslugs hparts hnamed hreached fun c hc => ?_
    obtain ⟨d, hd, p, hpre, rfl⟩ := ((mapped_dirMap documents).subdirs ds hnamed c).1 hc
    have hchild : Named (ds ++ [p]) := (named_dirsOf d).before hpre
    obtain ⟨ns, hns, hordered, hleaves⟩ := ih (ds ++ [p]) hchild (.inr ⟨d, hd, hpre⟩) fun e he hbelow => by
      have hlow := hdepth e he ((List.prefix_append _ _).trans hbelow)
      rw [List.length_append, List.length_singleton]
      omega
    exact ⟨p, ns, hchild, rfl, hns, hordered, hleaves⟩

end

/-! ## Pages -/

section
variable {P : Py} {repositoryId : Str} {documents : List Document} {nodes : List CodeNode}

/-- The slugs of the documents. -/
abbrev slugMapOf (P : Py) (documents : List Document) : Dict.Items Str Nat :=
  buildSlugMap P.lower (documents.map (·.toRepoDocument))

theorem parentOf_dirs (doc : Document) :
    (if parentDir doc.filePath = [] then none else some (groupId P repositoryId (parentDir doc.filePath))) =
      parentOf P repositoryId (dirsOf doc) := by
  rw [parentDir_eq, parentOf]
  by_cases hds : dirsOf doc = []
  · rw [hds, if_pos rfl, if_pos (show joinParts [] = [] from rfl)]
  · rw [if_neg (joinParts_ne_nil (named_dirsOf doc) hds), if_neg hds]

theorem inferDocType_parts {path docType : Str} (h : inferDocType P path = .ok docType) : pathParts path ≠ [] := by
  intro hnil
  unfold inferDocType at h
  rw [hnil] at h
  cases h

/-- What a page that is found is of. -/
theorem page_spec {slug : Str} {page : WikiPage} (h : getDocBySlug P nodes repositoryId documents slug = .ok (some page)) :
    ∃ doc ∈ documents, Dict.get (slugMapOf P documents) slug = some doc.id ∧ pathParts doc.filePath ≠ [] ∧
      page.id = doc.id := by
  unfold getDocBySlug at h
  dsimp only at h
  split at h
  · cases h
  · next doc hdoc =>
    obtain ⟨id, hid, hfind⟩ := Option.bind_eq_some_iff.1 hdoc
    have hsame : doc.id = id := by simpa using List.find?_some hfind
    cases htype : inferDocType P doc.filePath with
    | error e =>
      rw [htype] at h
      cases h
    | ok docType =>
      rw [htype] at h
      cases h
      exact ⟨doc, List.mem_of_find?_eq_some hfind, by rw [hsame]; exact hid, inferDocType_parts htype, rfl⟩

variable (repositoryId nodes) in
/-- The page of a document's slug. -/
theorem page_found (hids : (documents.map (·.id)).Nodup) {doc : Document} (hdoc : doc ∈ documents) {slug : Str}
    (hslug : Dict.get (slugMapOf P documents) slug = some doc.id) (hparts : pathParts doc.filePath ≠ []) :
    ∃ page, getDocBySlug P nodes repositoryId documents slug = .ok (some page) ∧ page.id = doc.id ∧
      page.content = doc.content ∧ page.parentId = parentOf P repositoryId (dirsOf doc) := by
  have hfind : documents.find? (·.id = doc.id) = some doc := by
    cases hd : documents.find? (·.id = doc.id) with
    | none => exact absurd (List.find?_eq_none.1 hd doc hdoc) (by simp)
    | some other =>
      have hid : other.id = doc.id := by simpa using List.find?_some hd
      rw [List.inj_on_of_nodup_map hids (List.mem_of_find?_eq_some hd) hdoc hid]
  unfold getDocBySlug
  dsimp only
  rw [hslug, Option.bind_some, hfind]
  dsimp only
  rw [inferDocType_ok P hparts, parentOf_dirs]
  exact ⟨_, rfl, rfl, rfl, rfl⟩

/-! ## The tree and the pages -/

/-- Each document is a leaf once, in the groups of its directories; siblings are
in order and name their parents; and a leaf's slug leads to the page of its
document, with the same parent. -/
structure TreeAgrees (P : Py) (nodes : List CodeNode) (repositoryId : Str) (documents : List Document)
    (tree : List WikiTreeNode) : Prop where
  complete : ((leavesOf [] tree).map fun x => (x.1, x.2.id, x.2.filePath)).Perm
    (documents.map fun d => (groupsFrom P repositoryId [] (dirsOf d), d.id, some d.filePath))
  ordered : Ordered none tree
  lookup : ∀ x ∈ leavesOf [] tree, ∃ d ∈ documents, x.2.id = d.id ∧
    ∃ page, getDocBySlug P nodes repositoryId documents x.2.slug = .ok (some page) ∧ page.id = d.id ∧
      page.content = d.content ∧ page.parentId = x.2.parentId

theorem listDocsTree_built (hids : (documents.map (·.id)).Nodup)
    (hapart : CitationResolver.SlugsApart P.lower (documents.map (·.toRepoDocument)))
    (hparts : ∀ d ∈ documents, pathParts d.filePath ≠ []) :
    ∃ tree, (∃ enough, ∀ fuel, enough ≤ fuel → listDocsTree P fuel repositoryId documents = .ok tree) ∧
      TreeAgrees P nodes repositoryId documents tree := by
  have hids' : ((documents.map (·.toRepoDocument)).map (·.id)).Nodup := by rwa [List.map_map]
  have hslug := fun (d : Document) (hd : d ∈ documents) =>
    CitationResolver.slug_of_document P.lower hids' hapart (List.mem_map_of_mem (f := (·.toRepoDocument)) hd)
  by_cases hnil : documents = []
  · subst hnil
    exact ⟨[], ⟨0, fun _ _ => rfl⟩, ⟨.refl _, .intro rfl (by simp) (by simp), by simp [leavesOf]⟩⟩
  obtain ⟨m, hm⟩ : ∃ m, ∀ d ∈ documents, (dirsOf d).length ≤ m :=
    ⟨(documents.map fun d => (dirsOf d).length).sum, fun d hd =>
      List.single_le_sum (fun _ _ => Nat.zero_le _) _ (List.mem_map_of_mem hd)⟩
  have hslugs : ∀ d ∈ documents,
      (Dict.get (Dict.ofItems ((slugMapOf P documents).map fun x => (x.2, x.1))) d.id).isSome := by
    intro d hd
    obtain ⟨slug, hget, -⟩ := hslug d hd
    rw [hget]
    rfl
  obtain ⟨ns, hns, hordered, hleaves⟩ := build_dir (P := P) hslugs hparts m [] ⟨[], [], rfl, .inl rfl, by simp⟩ (.inl rfl)
    fun d hd _ => by simpa using hm d hd
  have hplaces := hleaves []
  rw [List.filter_eq_self.2 (by simp)] at hplaces
  refine ⟨ns, ⟨m + 1, fun fuel hfuel => ?_⟩, ?_, hordered, fun x hx => ?_⟩
  · rw [listDocsTree, if_neg hnil]
    exact hns fuel hfuel
  · have hmap := hplaces.map fun y : Spot => (y.1, y.2.1, y.2.2.1)
    rw [List.map_map, List.map_map] at hmap
    exact hmap
  · obtain ⟨d, hd, hspot⟩ := List.mem_map.1 (hplaces.subset (List.mem_map_of_mem (f := place) hx))
    obtain ⟨slug, hget, hback⟩ := hslug d hd
    simp only [spot, place, Prod.mk.injEq] at hspot
    obtain ⟨-, hid, -, hslugOf, hparent⟩ := hspot
    rw [slugOf, hget, Option.getD_some] at hslugOf
    obtain ⟨page, hpage, hpageId, hcontent, hpageParent⟩ :=
      page_found repositoryId nodes hids hd hback (hparts d hd)
    rw [hslugOf] at hpage
    exact ⟨d, hd, hid.symm, page, hpage, hpageId, hcontent, hpageParent.trans hparent⟩

end

/-- Where the tree agrees with the pages, each document has a path, and stands
in the map of the slugs. -/
theorem TreeAgrees.slugs {P : Py} {nodes : List CodeNode} {repositoryId : Str} {documents : List Document}
    {tree : List WikiTreeNode} (h : TreeAgrees P nodes repositoryId documents tree)
    (hids : (documents.map (·.id)).Nodup) {d : Document} (hd : d ∈ documents) :
    pathParts d.filePath ≠ [] ∧ d.id ∈ (slugMapOf P documents).map (·.2) := by
  obtain ⟨x, hx, hxd⟩ := List.mem_map.1 (h.complete.symm.subset (List.mem_map_of_mem hd))
  simp only [Prod.mk.injEq] at hxd
  obtain ⟨e, -, hid, page, hfound, hpageId, -, -⟩ := h.lookup x hx
  obtain ⟨doc, hdoc, hslug, hparts, hdocId⟩ := page_spec hfound
  have hsame : doc = d := by
    refine List.inj_on_of_nodup_map hids hdoc hd ?_
    rw [← hdocId, hpageId, ← hid, hxd.2.1]
  subst hsame
  exact ⟨hparts, List.mem_map_of_mem (Dict.mem_of_get hslug)⟩

/-- For documents with ids of their own the tree is built and agrees with the
pages just where each path has a part, and no document finds its slug and its
suffixed slug given. -/
theorem docs_tree_agrees_iff (P : Py) (nodes : List CodeNode) (repositoryId : Str) (documents : List Document)
    (hids : (documents.map (·.id)).Nodup) :
    (∃ tree, (∃ enough, ∀ fuel, enough ≤ fuel → listDocsTree P fuel repositoryId documents = .ok tree) ∧
      TreeAgrees P nodes repositoryId documents tree) ↔
      (∀ d ∈ documents, pathParts d.filePath ≠ []) ∧
      ∀ before d after, documents.map (·.toRepoDocument) = before ++ d :: after →
        ¬(CitationResolver.Given P.lower before (CitationResolver.filePathToSlug P.lower d.filePath) ∧
          CitationResolver.Given P.lower before (CitationResolver.suffixedSlug P.lower d)) := by
  rw [← CitationResolver.slugsApart_iff]
  constructor
  · rintro ⟨tree, -, hagrees⟩
    refine ⟨fun d hd => (hagrees.slugs hids hd).1, CitationResolver.slugsApart_of_ids P.lower (by rwa [List.map_map]) ?_⟩
    intro d hd
    obtain ⟨doc, hdoc, rfl⟩ := List.mem_map.1 hd
    exact (hagrees.slugs hids hdoc).2
  · intro h
    exact listDocsTree_built hids h.2 h.1

/-- Texts as they are in ASCII, and the length for an id. -/
def ascii : Py := ⟨Str.lower, id, List.length⟩

def document (id : Nat) (path : String) : Document := ⟨⟨id, path.toList, none⟩, [], [], 0, 0⟩

theorem docs_tree_agrees_one : ∃ tree,
    (∃ enough, ∀ fuel, enough ≤ fuel → listDocsTree ascii fuel "r".toList [document 1 "docs/a.md"] = .ok tree) ∧
    TreeAgrees ascii [] "r".toList [document 1 "docs/a.md"] tree := by
  refine (docs_tree_agrees_iff ascii [] "r".toList [document 1 "docs/a.md"] (by decide)).2 ⟨?_, ?_⟩
  · intro d hd
    rw [List.mem_singleton.1 hd]
    decide
  · intro before d after hdocs h
    cases before with
    | nil => cases (CitationResolver.given_iff Str.lower).1 h.1
    | cons x before =>
      have hlen := congrArg List.length hdocs
      simp at hlen

/-- Three drafts of one page, with ids that end in the same four digits. -/
def threeDrafts : List Document := [document 0x10001 "a.md", document 0x20001 "a.mdx", document 0x30001 "a.rst"]

/-- The second of the drafts has no slug any more, and there is no tree. -/
theorem drafts_without_tree : (threeDrafts.map (·.id)).Nodup ∧ (threeDrafts.map (·.filePath)).Nodup ∧
    ¬∃ tree, (∃ enough, ∀ fuel, enough ≤ fuel → listDocsTree ascii fuel "r".toList threeDrafts = .ok tree) ∧
      TreeAgrees ascii [] "r".toList threeDrafts tree := by
  have hids : (threeDrafts.map (·.id)).Nodup := by decide
  refine ⟨hids, by decide, ?_⟩
  rintro ⟨tree, -, hagrees⟩
  have hin := (hagrees.slugs hids (d := document 0x20001 "a.mdx") (by simp [threeDrafts])).2
  exact absurd hin (by decide)

end Cograph.DocsTree
