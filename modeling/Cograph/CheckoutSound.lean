import Cograph.Checkout

/-!
# What stays in a checkout

A path that `read_file` is given is resolved before it is used, so that what is
read is in the checkout. The entries of a glob are used as they are: they stay
in it where no component of the glob is `..` and the links that it goes through
stay, too.
-/

namespace Cograph.Checkout

/-! ## Places -/

section
variable {t : Tree}

theorem find_mem {l : Loc} {node : Node} (hl : l ≠ []) : t.find l = some node ↔ (l, node) ∈ t.nodes := by
  rw [Tree.find, if_neg hl, Dict.get_iff t.distinct]

/-- What is above something that is there is a directory. -/
theorem find_above {l : Loc} {names : List Str} {node : Node} (h : t.find (l ++ names) = some node)
    (hne : names ≠ []) :
    t.find l = some .dir := by
  induction names using List.reverseRecOn generalizing node with
  | nil => exact absurd rfl hne
  | append_singleton names n ih =>
    have hmem := (find_mem (by simp)).1 h
    have habove : t.find (l ++ names) = some .dir := by
      have hroot := (t.rooted _ hmem).2
      simp only [← List.append_assoc, List.dropLast_concat] at hroot
      rcases hroot with hnil | hdir
      · simp [hnil, Tree.find]
      · by_cases hnil : l ++ names = []
        · simp [hnil, Tree.find]
        · exact (find_mem hnil).2 hdir
    by_cases hnil : names = []
    · rwa [hnil, List.append_nil] at habove
    · exact ih habove hnil

/-- A path leads from a place to another, over every link on the way. -/
inductive Leads (t : Tree) : Loc → List Comp → Loc → Prop where
  | done (l : Loc) : Leads t l [] l
  | up {l m : Loc} {rest : List Comp} : Leads t l.dropLast rest m → Leads t l (.up :: rest) m
  | link {l m : Loc} {n : Str} {rest target : List Comp} {absolute : Bool} :
      t.find (l ++ [n]) = some (.link absolute target) → Leads t (if absolute then [] else l) (target ++ rest) m →
      Leads t l (.name n :: rest) m
  | step {l m : Loc} {n : Str} {rest : List Comp} :
      (∀ absolute target, t.find (l ++ [n]) ≠ some (.link absolute target)) → Leads t (l ++ [n]) rest m →
      Leads t l (.name n :: rest) m

theorem walk_leads {steps : Nat} {l m : Loc} {path : List Comp} (h : t.walk steps l path = some m) :
    Leads t l path m := by
  induction steps generalizing l path with
  | zero =>
    cases path with
    | nil =>
      obtain rfl := Option.some.inj h
      exact .done l
    | cons c rest => cases h
  | succ steps ih =>
    cases path with
    | nil =>
      obtain rfl := Option.some.inj h
      exact .done l
    | cons c rest =>
      cases c with
      | up => exact .up (ih h)
      | name n =>
        cases hfind : t.find (l ++ [n]) with
        | none =>
          simp only [Tree.walk, hfind] at h
          exact .step (by simp [hfind]) (ih h)
        | some node =>
          cases node with
          | link absolute target =>
            simp only [Tree.walk, hfind] at h
            exact .link hfind (ih h)
          | dir =>
            simp only [Tree.walk, hfind] at h
            exact .step (by simp [hfind]) (ih h)
          | file binary text =>
            simp only [Tree.walk, hfind] at h
            exact .step (by simp [hfind]) (ih h)

theorem Leads.trans {l m k : Loc} {p q : List Comp} (h : Leads t l p m) (h' : Leads t m q k) :
    Leads t l (p ++ q) k := by
  induction h with
  | done l => exact h'
  | up _ ih => exact .up (ih h')
  | link hfind _ ih =>
    have hrest := ih h'
    rw [List.append_assoc] at hrest
    exact .link hfind hrest
  | step hfind _ ih => exact .step hfind (ih h')

/-- Names lead down to what is there, unless it is a link. -/
theorem leads_down {l : Loc} {names : List Str} {node : Node} (h : t.find (l ++ names) = some node)
    (hnode : ∀ absolute target, node ≠ .link absolute target) : Leads t l (names.map .name) (l ++ names) := by
  induction names generalizing l with
  | nil =>
    rw [List.append_nil]
    exact .done l
  | cons n names ih =>
    have hthere : t.find (l ++ [n] ++ names) = some node := by simpa using h
    have hrest := ih hthere
    rw [List.append_assoc, List.singleton_append] at hrest
    refine .step ?_ hrest
    intro absolute target
    by_cases hnil : names = []
    · rw [hnil, List.append_nil] at hthere
      rw [hthere]
      exact fun he => hnode _ _ (Option.some.inj he)
    · rw [find_above hthere hnil]
      simp

theorem below_dir {l : Loc} {names : List Str} (h : names ∈ t.dirsBelow l) : t.find (l ++ names) = some .dir := by
  rcases List.mem_append.1 h with h | h
  · split at h
    · rename_i hdir
      rwa [List.mem_singleton.1 h, List.append_nil]
    · cases h
  · obtain ⟨e, he, hsome⟩ := List.mem_filterMap.1 h
    obtain ⟨⟨hdir, hpre, hne⟩, rfl⟩ := Option.ite_none_right_eq_some.1 hsome |>.imp_right Option.some.inj
    obtain ⟨rest, hrest⟩ := hpre
    have hkey : l ++ e.1.drop l.length = e.1 := by rw [← hrest, List.drop_left]
    rw [hkey]
    exact (find_mem (t.rooted e he).1).2 (hdir ▸ he)

/-! ## Inside the root -/

/-- Strictly below the root and not in a hidden directory of it. -/
def Inside (root place : Loc) : Prop := ∃ n rest, place = root ++ n :: rest ∧ n ∉ hidden

/-- At or below the root and not in a hidden directory of it. -/
def Contained (root place : Loc) : Prop := root <+: place ∧ ∀ h ∈ hidden, ¬root ++ [h] <+: place

theorem Inside.contained {root place : Loc} (h : Inside root place) : Contained root place := by
  obtain ⟨n, rest, rfl, hn⟩ := h
  refine ⟨List.prefix_append _ _, ?_⟩
  intro d hd hpre
  obtain ⟨tail, htail⟩ := hpre
  rw [List.append_assoc, List.append_cancel_left_eq] at htail
  obtain ⟨rfl, -⟩ := List.cons.inj htail
  exact hn hd

theorem contained_root (root : Loc) : Contained root root := by
  refine ⟨List.prefix_refl root, ?_⟩
  intro d _ hpre
  have := hpre.length_le
  simp at this

theorem Inside.down {root place : Loc} (h : Inside root place) (names : List Str) : Inside root (place ++ names) := by
  obtain ⟨n, rest, rfl, hn⟩ := h
  exact ⟨n, rest ++ names, by simp, hn⟩

theorem hiddenFirst_append {path : List Comp} (hne : path ≠ []) (rest : List Comp) :
    hiddenFirst (path ++ rest) = hiddenFirst path := by
  cases path with
  | nil => exact absurd rfl hne
  | cons c path => cases c <;> rfl

variable (t) in
/-- A path of the root that has led to a place so far. -/
structure Reach (root place : Loc) (path : List Comp) : Prop where
  leads : Leads t root path place
  start : path = [] → place = root
  inside : path ≠ [] → hiddenFirst path = false → Inside root place

theorem Reach.down {root place : Loc} {path : List Comp} (h : Reach t root place path) {names : List Str}
    (hleads : Leads t place (names.map .name) (place ++ names)) :
    Reach t root (place ++ names) (path ++ names.map .name) := by
  refine ⟨h.leads.trans hleads, ?_, ?_⟩
  · intro hnil
    obtain ⟨hpath, hnames⟩ := List.append_eq_nil_iff.1 hnil
    rw [List.map_eq_nil_iff.1 hnames, List.append_nil]
    exact h.start hpath
  · intro hne hvisible
    by_cases hpath : path = []
    · rw [h.start hpath]
      rw [hpath, List.nil_append] at hne hvisible
      cases names with
      | nil => exact absurd rfl hne
      | cons n names => exact ⟨n, names, rfl, by simpa [hiddenFirst] using hvisible⟩
    · rw [hiddenFirst_append hpath] at hvisible
      exact (h.inside hpath hvisible).down names

end

/-! ## Globs -/

section
variable {t : Tree} {steps : Nat} {keeps : Option Node → Bool} {root : Loc}

variable (t steps keeps root) in
/-- A search that stays inside: it comes by no `..`, and a name that leads
elsewhere, not hidden and not the name of an entry left out, leads inside. -/
def Safe : List PatComp → Loc → List Comp → Prop
  | [], _, _ => True
  | .up :: _, l, _ => t.find l ≠ some .dir
  | .deep :: rest, l, path => ∀ names ∈ t.dirsBelow l, hiddenFirst (path ++ names.map .name) = false →
      Safe rest (l ++ names) (path ++ names.map .name)
  | .pattern p :: rest, l, path => ∀ n ∈ t.children l, fnmatch p n = true → hiddenFirst (path ++ [.name n]) = false →
      (t.walk steps l [.name n] ≠ some (l ++ [n]) →
        (rest = [] → keeps ((t.walk steps l [.name n]).bind t.find) = true) →
        ∃ place, t.walk steps l [.name n] = some place ∧ Inside root place) ∧
      ∀ place, t.walk steps l [.name n] = some place → Safe rest place (path ++ [.name n])

theorem select_extends {pats : List PatComp} {l : Loc} {path : List Comp} {e : Entry}
    (h : e ∈ select t steps pats l path) : path <+: e.path := by
  induction pats generalizing l path with
  | nil =>
    obtain rfl := List.mem_singleton.1 h
    exact List.prefix_refl path
  | cons pat rest ih =>
    cases pat with
    | up =>
      rw [select] at h
      split at h
      · exact (List.prefix_append _ _).trans (ih h)
      · cases h
    | deep =>
      obtain ⟨names, -, h⟩ := List.mem_flatMap.1 h
      exact (List.prefix_append _ _).trans (ih h)
    | pattern p =>
      obtain ⟨n, -, h⟩ := List.mem_flatMap.1 h
      split at h
      · cases hwalk : t.walk steps l [.name n] with
        | none =>
          rw [hwalk] at h
          dsimp only at h
          split at h
          · obtain rfl := List.mem_singleton.1 h
            exact List.prefix_append _ _
          · cases h
        | some next =>
          rw [hwalk] at h
          exact (List.prefix_append _ _).trans (ih h)
      · cases h

theorem visible_of_prefix {path path' : List Comp} (h : path <+: path') (hvisible : hiddenFirst path' = false) :
    hiddenFirst path = false := by
  obtain ⟨rest, rfl⟩ := h
  cases path with
  | nil => rfl
  | cons c path => rwa [hiddenFirst_append (by simp)] at hvisible

/-- **A safe search stays inside.** An entry that is kept leads to the root
itself, by the empty path, or inside it. -/
theorem select_inside {pats : List PatComp} {l : Loc} {path : List Comp} {e : Entry}
    (hsafe : Safe t steps keeps root pats l path) (hreach : Reach t root l path)
    (he : e ∈ select t steps pats l path) (hkept : keeps (e.place.bind t.find) = true)
    (hvisible : hiddenFirst e.path = false) : ∃ place, e.place = some place ∧ Reach t root place e.path := by
  induction pats generalizing l path with
  | nil =>
    obtain rfl := List.mem_singleton.1 he
    exact ⟨l, rfl, hreach⟩
  | cons pat rest ih =>
    cases pat with
    | up =>
      rw [select, if_neg hsafe] at he
      cases he
    | deep =>
      obtain ⟨names, hnames, he⟩ := List.mem_flatMap.1 he
      have hpath := visible_of_prefix (select_extends he) hvisible
      have hdown := hreach.down (leads_down (below_dir hnames) (by simp))
      exact ih (hsafe names hnames hpath) hdown he
    | pattern p =>
      obtain ⟨n, hn, he⟩ := List.mem_flatMap.1 he
      split at he
      · rename_i hmatch
        cases hwalk : t.walk steps l [.name n] with
        | none =>
          rw [hwalk] at he
          dsimp only at he
          split at he
          · rename_i hrest
            obtain rfl := List.mem_singleton.1 he
            obtain ⟨hout, -⟩ := hsafe n hn hmatch hvisible
            rw [hwalk] at hout
            obtain ⟨place, hplace, -⟩ := hout (by simp) fun _ => hkept
            cases hplace
          · cases he
        | some next =>
          rw [hwalk] at he
          have hpath := visible_of_prefix (select_extends he) hvisible
          obtain ⟨hout, hnext⟩ := hsafe n hn hmatch hpath
          refine ih (hnext next hwalk) ?_ he
          by_cases hown : next = l ++ [n]
          · subst hown
            have hleads : Leads t l ([n].map .name) (l ++ [n]) := walk_leads hwalk
            exact hreach.down hleads
          · refine ⟨hreach.leads.trans (walk_leads hwalk), by simp, fun _ _ => ?_⟩
            obtain ⟨place, hplace, hin⟩ := hout (by simpa [hwalk] using hown) (by
              intro hrest
              subst hrest
              obtain rfl := List.mem_singleton.1 he
              rw [hwalk]
              exact hkept)
            obtain rfl := Option.some.inj (hwalk.symm.trans hplace)
            exact hin
      · cases he

end

/-! ## The operations -/

inductive Op where
  | readFile (path : Str) (offset limit : Int)
  | listFiles (pattern : Str) (cap : Nat)
  | grep (compile : Str → Option (Str → Bool)) (pattern : Str) (pathGlob : Option Str) (cap : Nat)

section
variable (t : Tree) (steps : Nat) (root : List Comp)

/-- What is returned of a file comes from inside the root, and what is listed
or searched is not hidden. -/
def Sandboxed : Op → Prop
  | .readFile path offset limit => ∀ r, readFile t steps root path offset limit = .ok r →
      ∃ top place text, t.walk steps [] root = some top ∧ Leads t top r.path place ∧ top <+: place ∧
        t.find place = some (.file false text) ∧ r = readLines r.path text offset limit
  | .listFiles pattern cap => ∀ r, listFiles t steps root pattern cap = .ok r → ∀ path ∈ r.matched,
      ∃ top place, t.walk steps [] root = some top ∧ Leads t top path place ∧ Contained top place
  | .grep compile pattern pathGlob cap =>
    ∀ r, grep t steps root compile pattern pathGlob cap = .ok r → ∀ m ∈ r.matched,
      ∃ top place text, t.walk steps [] root = some top ∧ Leads t top m.path place ∧ Contained top place ∧
        t.find place = some (.file false text) ∧ ∃ line ∈ fileLines text, m.text = line.takeWhile (· ≠ '\n')

def isFile : Option Node → Bool
  | some (.file false _) => true
  | _ => false

/-- The searches of the operation's glob are safe. -/
def Guarded : Op → Prop
  | .readFile .. => True
  | .listFiles pattern _ => ∀ top, t.walk steps [] root = some top →
      ∀ pats ∈ searches (if Str.strip pattern = [] then allFiles else pattern),
        Safe t steps (· ≠ some .dir) top pats top []
  | .grep _ _ pathGlob _ => ∀ top, t.walk steps [] root = some top →
      ∀ pats ∈ searches (if pathGlob.getD [] = [] then allFiles else pathGlob.getD []),
        Safe t steps isFile top pats top []

end

section
variable {t : Tree} {steps : Nat} {root : List Comp}

theorem readFile_sandboxed (path : Str) (offset limit : Int) :
    Sandboxed t steps root (.readFile path offset limit) := by
  intro r h
  unfold readFile at h
  cases hres : resolve t steps root path with
  | error e =>
    rw [hres] at h
    cases h
  | ok p =>
    obtain ⟨top, target⟩ := p
    rw [hres] at h
    dsimp only at h
    obtain ⟨htop, rest, rfl⟩ : t.walk steps [] root = some top ∧ top <+: target := by
      unfold resolve at hres
      split at hres
      · cases hres
      · split at hres
        · rename_i htop
          split at hres
          · rename_i hpre
            cases hres
            exact ⟨htop, hpre⟩
          · cases hres
        · cases hres
    cases hfile : t.find (top ++ rest) with
    | none => simp [hfile] at h
    | some node =>
      cases node with
      | dir => simp [hfile] at h
      | link absolute target => simp [hfile] at h
      | file binary text =>
        cases binary with
        | true => simp [hfile] at h
        | false =>
          simp only [hfile, Bool.false_eq_true, if_false, List.drop_left] at h
          obtain rfl := Except.ok.inj h
          exact ⟨top, top ++ rest, text, htop, leads_down hfile (by simp), List.prefix_append _ _, hfile, rfl⟩

theorem glob_some {top : Loc} {pattern : Str} {found : List Entry} (h : glob t steps top pattern = some found)
    {e : Entry} (he : e ∈ found) : ∃ pats ∈ searches pattern, e ∈ select t steps pats top [] := by
  unfold glob at h
  obtain ⟨-, h⟩ := Option.ite_none_left_eq_some.1 h
  obtain rfl := Option.some.inj h
  have hmem : e ∈ ((searches pattern).flatMap (select t steps · top [])).dedup := by
    split at he
    · exact (List.mem_filter.1 he).1
    · exact he
  exact List.mem_flatMap.1 (List.mem_dedup.1 hmem)

theorem entries_ok {pattern : Str} {top : Loc} {found : List Entry}
    (h : entries t steps root pattern = .ok (top, found)) :
    t.walk steps [] root = some top ∧ glob t steps top pattern = some found := by
  unfold entries at h
  split at h
  · cases h
  · cases hroot : t.walk steps [] root with
    | none => simp [hroot] at h
    | some top' =>
      cases hglob : glob t steps top' pattern with
      | none => simp [hroot, hglob] at h
      | some found' =>
        simp only [hroot, hglob] at h
        cases h
        exact ⟨rfl, hglob⟩

/-- What is kept of the entries of a glob whose searches are safe. -/
theorem entries_contained {keeps : Option Node → Bool} {pattern : Str} {top : Loc} {found : List Entry}
    (h : entries t steps root pattern = .ok (top, found))
    (hsafe : ∀ pats ∈ searches pattern, Safe t steps keeps top pats top []) {e : Entry} (he : e ∈ found)
    (hkept : keeps (e.place.bind t.find) = true) (hvisible : hiddenFirst e.path = false) :
    ∃ place, e.place = some place ∧ Leads t top e.path place ∧ Contained top place := by
  obtain ⟨pats, hpats, hsel⟩ := glob_some (entries_ok h).2 he
  obtain ⟨place, hplace, hreach⟩ :=
    select_inside (hsafe pats hpats) ⟨.done top, fun _ => rfl, fun hne => absurd rfl hne⟩
      hsel hkept hvisible
  refine ⟨place, hplace, hreach.leads, ?_⟩
  by_cases hnil : e.path = []
  · rw [hreach.start hnil]
    exact contained_root top
  · exact (hreach.inside hnil hvisible).contained

theorem listFiles_sandboxed {pattern : Str} {cap : Nat} (hg : Guarded t steps root (.listFiles pattern cap)) :
    Sandboxed t steps root (.listFiles pattern cap) := by
  intro r h path hpath
  unfold listFiles at h
  cases hent : entries t steps root (if Str.strip pattern = [] then allFiles else pattern) with
  | error e => simp [hent] at h
  | ok p =>
    obtain ⟨top, found⟩ := p
    simp only [hent] at h
    obtain rfl := Except.ok.inj h
    rw [(List.perm_insertionSort _ _).mem_iff] at hpath
    obtain ⟨e, he, rfl⟩ := List.mem_map.1 hpath
    obtain ⟨he, hkept⟩ := List.mem_filter.1 (List.mem_of_mem_take he)
    simp only [isDir, Bool.and_eq_true, Bool.not_eq_true', decide_eq_false_iff_not] at hkept
    have htop := (entries_ok hent).1
    obtain ⟨place, -, hleads, hin⟩ := entries_contained hent (hg top htop) he (by simpa using hkept.1) hkept.2
    exact ⟨top, place, htop, hleads, hin⟩

theorem searchable_some {e : Entry} {text : Str} (h : searchable t e = some text) :
    e.place.bind t.find = some (.file false text) ∧ hiddenFirst e.path = false := by
  unfold searchable at h
  split at h
  · rename_i found hfound
    obtain ⟨hvisible, h⟩ := Option.ite_none_left_eq_some.1 h
    obtain rfl := Option.some.inj h
    exact ⟨hfound, by simpa using hvisible⟩
  · cases h

theorem mem_linesFound {search : Str → Bool} {path : List Comp} {text : Str} {m : GrepMatch}
    (h : m ∈ linesFound search path text) :
    m.path = path ∧ ∃ line ∈ fileLines text, m.text = line.takeWhile (· ≠ '\n') := by
  obtain ⟨⟨line, number⟩, hline, hm⟩ := List.mem_filterMap.1 h
  obtain ⟨-, hm⟩ := Option.ite_none_right_eq_some.1 hm
  obtain rfl := Option.some.inj hm
  exact ⟨rfl, line, List.fst_mem_of_mem_zipIdx hline, rfl⟩

theorem grep_sandboxed {compile : Str → Option (Str → Bool)} {pattern : Str} {pathGlob : Option Str} {cap : Nat}
    (hg : Guarded t steps root (.grep compile pattern pathGlob cap)) :
    Sandboxed t steps root (.grep compile pattern pathGlob cap) := by
  intro r h m hm
  unfold grep at h
  split at h
  · cases h
  · cases hcompile : compile pattern with
    | none => simp [hcompile] at h
    | some search =>
      cases hent : entries t steps root (if pathGlob.getD [] = [] then allFiles else pathGlob.getD []) with
      | error e => simp [hcompile, hent] at h
      | ok p =>
        obtain ⟨top, found⟩ := p
        simp only [hcompile, hent] at h
        obtain rfl := Except.ok.inj h
        obtain ⟨e, he, hm⟩ := List.mem_flatMap.1 (List.mem_of_mem_take hm)
        cases htext : searchable t e with
        | none => simp [htext] at hm
        | some text =>
          rw [htext] at hm
          obtain ⟨hfile, hvisible⟩ := searchable_some htext
          obtain ⟨hpath, line, hline, hshown⟩ := mem_linesFound hm
          have htop := (entries_ok hent).1
          obtain ⟨place, hplace, hleads, hin⟩ :=
            entries_contained hent (hg top htop) he (by simp [hfile, isFile]) hvisible
          rw [hplace] at hfile
          exact ⟨top, place, text, htop, hpath ▸ hleads, hin, hfile, line, hline, hshown⟩

end

namespace Sample

/-- A checkout with a file and a link to it, next to a file of its own. -/
def tree : Tree where
  nodes := [(["srv".toList], .dir), (["srv".toList, "repo".toList], .dir),
    (["srv".toList, "repo".toList, "a.py".toList], .file false "pass\n".toList),
    (["srv".toList, "repo".toList, "b.py".toList], .link false [.name "a.py".toList]),
    (["srv".toList, "secret".toList], .file false "key\n".toList)]
  distinct := by decide
  rooted := by decide

def root : List Comp := [.name "srv".toList, .name "repo".toList]

end Sample

end Cograph.Checkout
