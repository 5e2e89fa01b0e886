import Cograph.Ingest
import Cograph.Strs
import Cograph.MovesSound

/-!
# The qualified names of a file

The naming functions of `graph/extractor.py`, for Python, TypeScript and
JavaScript, and Go. What the tree-sitter walk reads off a file, its package
clause and its declarations, is the input. A TS/JS function or class without a
name comes with the name the walk gives it, `default`, or not at all.
-/

namespace Cograph.Extractor

/-- A function, constant, alias or class at the top of a file, with the names of
its members. -/
structure Decl where
  name : Str
  members : List Str
  deriving DecidableEq

inductive GoDecl where
  | function (name : Str)
  | method (receiver name : Str)
  | type (name : Str) (methods : List Str)
  deriving DecidableEq

inductive Parsed where
  | script (decls : List Decl)
  | go (package : Option Str) (decls : List GoDecl)
  deriving DecidableEq

/-! ## Paths -/

/-- `PurePath.stem`. -/
def stem (p : Path) : Str := p.name.toList.take (p.name.toList.length - p.suffix.toList.length)

def dirParts (p : Path) : List Str := p.dir.map String.toList

/-- The parts of `with_suffix("")`. -/
def barePath (p : Path) : List Str := dirParts p ++ [stem p]

def dotted (parts : List Str) : Str := ['.'].intercalate parts

def below (base symbol : Str) : Str := base ++ '.' :: symbol

def moduleQualifiedName (p : Path) : Str :=
  let parts := if stem p = "__init__".toList then dirParts p else barePath p
  if parts = [] then stem p else dotted parts

def tsModuleQualifiedName (p : Path) : Str :=
  dotted (if 1 < (barePath p).length ∧ stem p = "index".toList then dirParts p else barePath p)

def goModuleQnSuffix : Str := "#module".toList

/-- Of a package whose name ends in `_test` the last directory does too. -/
def goPackageQualifiedName (p : Path) (packageName : Str) : Str :=
  let suffix := if "_test".toList.isSuffixOf packageName then "_test".toList else []
  match ((dirParts p).filter (· ≠ [])).reverse with
  | last :: parts => dotted (((last ++ suffix) :: parts).reverse)
  | [] => if packageName = [] then stem p else packageName

/-! ## Names -/

/-- `_go_package_name`. -/
def goPackageName (p : Path) (package : Option Str) : Str := package.getD (stem p)

/-- The name of the module node. -/
def moduleName (p : Path) : Parsed → Str
  | .script _ => if p.detectGraphLanguage = some .python then moduleQualifiedName p else tsModuleQualifiedName p
  | .go _ _ => moduleQualifiedName p ++ goModuleQnSuffix

/-- What the names of a file's symbols begin with. -/
def base (p : Path) : Parsed → Str
  | .script ds => moduleName p (.script ds)
  | .go package _ => goPackageQualifiedName p (goPackageName p package)

def declSymbols (d : Decl) : List Str := d.name :: d.members.map (below d.name)

/-- A package may have an `init` and a `_` in each file. -/
def goSymbols (p : Path) : GoDecl → List Str
  | .function name => [if name ∈ ["init".toList, "_".toList] then name ++ '@' :: stem p else name]
  | .method receiver name => if receiver = [] ∨ name = [] then [] else [below receiver name]
  | .type name methods => if name = [] then [] else name :: (methods.filter (· ≠ [])).map (below name)

def symbols (p : Path) : Parsed → List Str
  | .script ds => ds.flatMap declSymbols
  | .go _ ds => ds.flatMap (goSymbols p)

/-- The qualified names of a file's nodes. -/
def names (p : Path) (x : Parsed) : List Str := moduleName p x :: (symbols p x).map (below (base p x))

end Cograph.Extractor

/-!
## When no file is shadowed

Dots join directories, files and symbols alike, so the text of a name does not
tell where it was cut. Two files share a name exactly if they have the same
module name, one's module is a symbol of the other, or their symbols meet where
one's base lies below the other's.
-/

namespace Cograph.Extractor

/-! ## Dots -/

theorem below_eq_below {b c s t : Str} : below b s = below c t ↔
    (b = c ∧ s = t) ∨ (∃ u, c = below b u ∧ s = below u t) ∨ ∃ u, b = below c u ∧ t = below u s := by
  unfold below
  constructor
  · intro h
    rcases List.append_eq_append_iff.1 h with ⟨u, hc, hs⟩ | ⟨u, hb, ht⟩
    · cases u with
      | nil =>
        refine .inl ⟨by simpa using hc.symm, ?_⟩
        simpa using hs
      | cons d u =>
        obtain ⟨rfl, rfl⟩ := List.cons.inj hs
        exact .inr (.inl ⟨u, hc, rfl⟩)
    · cases u with
      | nil =>
        refine .inl ⟨by simpa using hb, ?_⟩
        simpa using ht.symm
      | cons d u =>
        obtain ⟨rfl, rfl⟩ := List.cons.inj ht
        exact .inr (.inr ⟨u, hb, rfl⟩)
  · intro h
    rcases h with ⟨rfl, rfl⟩ | ⟨u, rfl, rfl⟩ | ⟨u, rfl, rfl⟩ <;> simp

/-! ## Files apart -/

section
variable (p q : Path) (x y : Parsed)

/-- Nothing of the second file is a symbol of the first: not its module, and,
where its base lies below the first's, none of its symbols. -/
def Clear : Prop :=
  (∀ u, moduleName q y = below (base p x) u → u ∉ symbols p x) ∧
    ∀ u, base q y = below (base p x) u → ∀ t ∈ symbols q y, below u t ∉ symbols p x

def Apart : Prop :=
  moduleName p x ≠ moduleName q y ∧ Clear p q x y ∧ Clear q p y x ∧
    (base p x = base q y → ∀ s ∈ symbols p x, s ∉ symbols q y)

theorem names_disjoint_iff : (∀ n ∈ names p x, n ∉ names q y) ↔ Apart p q x y := by
  constructor
  · intro h
    have hmod : moduleName p x ∈ names p x := List.mem_cons_self
    have hmod' : moduleName q y ∈ names q y := List.mem_cons_self
    have hsym : ∀ s ∈ symbols p x, below (base p x) s ∈ names p x := fun s hs =>
      List.mem_cons_of_mem _ (List.mem_map_of_mem hs)
    have hsym' : ∀ s ∈ symbols q y, below (base q y) s ∈ names q y := fun s hs =>
      List.mem_cons_of_mem _ (List.mem_map_of_mem hs)
    refine ⟨?_, ⟨?_, ?_⟩, ⟨?_, ?_⟩, ?_⟩
    · intro he
      exact h _ hmod (he ▸ hmod')
    · intro u hu hs
      exact h _ (hsym u hs) (hu ▸ hmod')
    · intro u hu t ht hs
      refine h _ (hsym _ hs) ?_
      rw [below_eq_below.2 (.inr (.inl ⟨u, hu, rfl⟩))]
      exact hsym' t ht
    · intro u hu hs
      exact h _ hmod (hu ▸ hsym' u hs)
    · intro u hu t ht hs
      refine h _ (hsym t ht) ?_
      rw [below_eq_below.2 (.inr (.inr ⟨u, hu, rfl⟩))]
      exact hsym' _ hs
    · intro hb s hs hs'
      exact h _ (hsym s hs) (hb ▸ hsym' s hs')
  · intro ⟨hne, ⟨hmod, hsym⟩, ⟨hmod', hsym'⟩, hbase⟩ n hn hn'
    rcases List.mem_cons.1 hn with rfl | hn
    · rcases List.mem_cons.1 hn' with he | hn'
      · exact hne he
      · obtain ⟨t, ht, he⟩ := List.mem_map.1 hn'
        exact hmod' t he.symm ht
    · obtain ⟨s, hs, rfl⟩ := List.mem_map.1 hn
      rcases List.mem_cons.1 hn' with he | hn'
      · exact hmod s he.symm hs
      · obtain ⟨t, ht, he⟩ := List.mem_map.1 hn'
        rcases below_eq_below.1 he with ⟨hb, rfl⟩ | ⟨u, hu, rfl⟩ | ⟨u, hu, rfl⟩
        · exact hbase hb.symm _ hs ht
        · exact hsym' u hu s hs ht
        · exact hsym u hu t ht hs

end

/-! ## A full ingest -/

section
variable (T : Tools) (parse : Path → String → Parsed)

/-- The extractor names the nodes of a file as above. -/
def Reads : Prop := ∀ C p text,
  (T.extract C p text).nodes.map (·.qualifiedName) = (names p (parse p text)).map String.ofList

/-- No file of a checkout takes a name of another one, and a full ingest leaves
a module row for each. -/
structure Unshadowed (C : Checkout) : Prop where
  disjoint : ∀ f g, Indexed T C f → Indexed T C g → f.1 ≠ g.1 →
    ∀ n ∈ names f.1 (parse f.1 f.2), n ∉ names g.1 (parse g.1 g.2)
  modules : Selectable T C → ∀ f, Indexed T C f →
    ∃ n ∈ (ingestFullWalk T C emptyDb).walk.db.nodes, n.filePath = f.1 ∧ n.nodeType = .module

theorem mem_fact_names {C : Checkout} {f : Path × String} {q : String} :
    (∃ x ∈ facts T C f, x.1 = q) ↔ q ∈ (T.extract C f.1 f.2).nodes.map (·.qualifiedName) := by
  have hnames : (T.extract C f.1 f.2).nodes.map (·.qualifiedName) =
      ((parseSourceGraph T C f.1 f.2).nodes.map (·.fact T.host)).map (·.1) := by
    rw [parse_facts, List.map_map]
    rfl
  rw [hnames, facts, deduped_facts]
  constructor
  · intro h
    obtain ⟨x, hx, rfl⟩ := h
    obtain ⟨y, hy, rfl⟩ := List.mem_map.1 hx
    obtain ⟨z, hz, hzy⟩ := List.mem_map.1 (Dict.mem_ofItems hy)
    rw [← hzy]
    exact List.mem_map_of_mem hz
  · intro h
    have hkey : q ∈ (Dict.ofItems (((parseSourceGraph T C f.1 f.2).nodes.map (·.fact T.host)).map
        fun f => (f.1, f))).map (·.1) := by
      rw [Dict.mem_keys_ofItems, List.map_map]
      exact h
    obtain ⟨y, hy, rfl⟩ := List.mem_map.1 hkey
    obtain ⟨z, _, hzy⟩ := List.mem_map.1 (Dict.mem_ofItems hy)
    refine ⟨y.2, List.mem_map_of_mem hy, ?_⟩
    rw [← hzy]

variable {T parse}

theorem distinct_iff (hr : Reads T parse) {C : Checkout} : Distinct T C ↔
    ∀ f g, Indexed T C f → Indexed T C g → f.1 ≠ g.1 →
      ∀ n ∈ names f.1 (parse f.1 f.2), n ∉ names g.1 (parse g.1 g.2) := by
  have hmem : ∀ {f : Path × String} {n : Str}, n ∈ names f.1 (parse f.1 f.2) ↔
      ∃ x ∈ facts T C f, x.1 = String.ofList n := by
    intro f n
    rw [mem_fact_names, hr, List.mem_map]
    constructor
    · exact fun h => ⟨n, h, rfl⟩
    · intro h
      obtain ⟨m, hm, he⟩ := h
      rwa [← String.ofList_injective he]
  constructor
  · intro h f g hf hg hne n hn hn'
    obtain ⟨x, hx, hxn⟩ := hmem.1 hn
    obtain ⟨y, hy, hyn⟩ := hmem.1 hn'
    exact h f g hf hg hne x hx y hy (hxn.trans hyn.symm)
  · intro h f g hf hg hne x hx y hy he
    refine h f g hf hg hne x.1.toList (hmem.2 ⟨x, hx, ?_⟩) (hmem.2 ⟨y, hy, ?_⟩)
    · rw [String.ofList_toList]
    · rw [String.ofList_toList, he]

theorem fullWalk_modules (hT : T.Ok) {C : Checkout} (hd : Distinct T C) (hsel : Selectable T C) {f : Path × String}
    (hf : Indexed T C f) :
    ∃ n ∈ (ingestFullWalk T C emptyDb).walk.db.nodes, n.filePath = f.1 ∧ n.nodeType = .module := by
  have hnone : ∀ g : Path × String, ¬ Indexed T .empty g := fun g hg => by simp [Indexed, Checkout.empty] at hg
  have hempty : Stores T .empty emptyDb := by
    refine ⟨emptyDb_ok, fun p x => ?_⟩
    constructor
    · intro h
      obtain ⟨n, hn, _⟩ := h
      simp [emptyDb] at hn
    · intro h
      obtain ⟨text, ht, _⟩ := h
      exact absurd ht (hnone _)
  have hlost : LosesNothing T C (ingestCheckout T C emptyDb none) := by
    refine (ingest_moves_iff hT hempty (fun g _ hg => absurd hg (hnone g)) hd hsel ?_ (by simp)).2 ?_
    · simp [Checkout.empty]
    · intro s _ f g _ hg
      exact absurd hg (hnone g)
  have hstores : Stores T C (ingestFullWalk T C emptyDb).walk.db :=
    fullWalk_stores hT emptyDb_shows (fun _ _ h => by cases h) hlost.1 hlost.2.1
  obtain ⟨l, hl⟩ := Option.ne_none_iff_exists'.1 hf.language
  obtain ⟨n, hn, hp, hfact⟩ := (hstores.rows f.1 _).2 ⟨f.2, hf, module_fact hT hl⟩
  exact ⟨n, hn, hp, congrArg (·.2.2.1) hfact⟩

/-- No file is shadowed if and only if any two files are apart. -/
theorem unshadowed_iff (hT : T.Ok) (hr : Reads T parse) (C : Checkout) : Unshadowed T parse C ↔
    ∀ f g, Indexed T C f → Indexed T C g → f.1 ≠ g.1 → Apart f.1 g.1 (parse f.1 f.2) (parse g.1 g.2) := by
  simp only [← names_disjoint_iff]
  constructor
  · exact fun h => h.disjoint
  · exact fun h => ⟨h, fun hsel f hf => fullWalk_modules hT ((distinct_iff hr).2 h) hsel hf⟩

end

/-! ## Two files -/

namespace NamesSample

/-- A text is the name of the one function of its file. -/
def parseOne (_ : Path) (text : String) : Parsed := .script (if text = "" then [] else [⟨text.toList, []⟩])

def scriptName (p : Path) : Str := moduleName p (.script [])

def extract (p : Path) (text : String) : ExtractedGraph where
  nodes := smallNode p .module (String.ofList (scriptName p)) text ::
    (symbols p (parseOne p text)).map fun s => smallNode p .function (String.ofList (below (scriptName p) s)) text
  edges := []

def tools : Tools where
  host := smallHost
  size := String.length
  selects _ _ _ := some true
  fingerprint _ _ := none
  moduleName p := String.ofList (scriptName p)
  extract _ := extract

theorem mem_extract {p : Path} {text : String} {x : ExtractedNode} (h : x ∈ (extract p text).nodes) :
    x = smallNode p .module (String.ofList (scriptName p)) text ∨
      ∃ s, x = smallNode p .function (String.ofList (below (scriptName p) s)) text := by
  rcases List.mem_cons.1 h with h | h
  · exact .inl h
  · obtain ⟨s, _, hs⟩ := List.mem_map.1 h
    exact .inr ⟨s, hs.symm⟩

theorem extract_file {p : Path} (hp : p.detectGraphLanguage ≠ none) (text : String) :
    FileGraph tools p text (extract p text) := by
  obtain ⟨l, hl⟩ := Option.ne_none_iff_exists'.1 hp
  refine ⟨?_, ?_, ?_, ⟨_, List.mem_cons_self, rfl⟩, ?_, ?_⟩
  · intro x hx
    rcases mem_extract hx with rfl | ⟨s, rfl⟩ <;> rfl
  · intro x hx
    rcases mem_extract hx with rfl | ⟨s, rfl⟩ <;> simp [smallNode, hl]
  · intro x hx
    rcases mem_extract hx with rfl | ⟨s, rfl⟩ <;> simp only [smallNode, tools]
  · intro x hx ht
    rcases mem_extract hx with rfl | ⟨s, rfl⟩
    · exact ⟨rfl, rfl, rfl⟩
    · simp [smallNode] at ht
  · intro x hx hq
    rcases mem_extract hx with rfl | ⟨s, rfl⟩
    · rfl
    · simp only [smallNode, tools] at hq
      have hlength := congrArg List.length (String.ofList_injective hq)
      simp [below] at hlength

theorem tools_ok : tools.Ok where
  digits _ := lookup_length (by decide) (by decide)
  context _ _ _ _ := rfl
  profile _ _ _ := rfl
  file _ _ text hp := extract_file hp text

theorem tools_reads : Reads tools parseOne := by
  intro _ p text
  simp only [tools, extract, names, List.map_cons, List.map_map]
  rfl

def checkout (p q : Path) (text : String) (h : p ≠ q) : Checkout := ⟨[(p, text), (q, "")], by simpa using h⟩

def stubs : Checkout := checkout ⟨[], "a.py"⟩ ⟨[], "a.pyi"⟩ "" (by decide)

/-- A function `b` of `a.py`, and `a/b.py`. -/
def nested : Checkout := checkout ⟨[], "a.py"⟩ ⟨["a"], "b.py"⟩ "b" (by decide)

def siblings : Checkout := checkout ⟨[], "a.py"⟩ ⟨[], "b.py"⟩ "b" (by decide)

end NamesSample

open NamesSample in
theorem unshadowed_siblings : Unshadowed tools parseOne siblings ↔
    ∀ f g, Indexed tools siblings f → Indexed tools siblings g → f.1 ≠ g.1 →
      Apart f.1 g.1 (parseOne f.1 f.2) (parseOne g.1 g.2) :=
  unshadowed_iff tools_ok tools_reads siblings

open NamesSample in
/-- The stub is skipped for the module, and the module for the file below it. -/
theorem files_shadowed :
    (¬ Unshadowed tools parseOne stubs ∧
      ∀ n ∈ (ingestFullWalk tools stubs emptyDb).walk.db.nodes, n.filePath ≠ ⟨[], "a.pyi"⟩) ∧
    ¬ Unshadowed tools parseOne nested ∧
      ∀ n ∈ (ingestFullWalk tools nested emptyDb).walk.db.nodes, n.filePath ≠ ⟨[], "a.py"⟩ := by
  refine ⟨⟨?_, by decide +kernel⟩, ?_, by decide +kernel⟩
  · intro h
    exact h.disjoint (⟨[], "a.py"⟩, "") (⟨[], "a.pyi"⟩, "") (by decide +kernel) (by decide +kernel) (by decide)
      "a".toList (by decide +kernel) (by decide +kernel)
  · intro h
    exact h.disjoint (⟨[], "a.py"⟩, "b") (⟨["a"], "b.py"⟩, "") (by decide +kernel) (by decide +kernel) (by decide)
      "a.b".toList (by decide +kernel) (by decide +kernel)

end Cograph.Extractor
