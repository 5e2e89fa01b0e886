import Cograph.Checkout
import Cograph.Evidence
import Cograph.Joins
import Cograph.NonBlank

/-!
# Reading a file page by page

`wiki/evidence_ledger.py`: the record that is kept of a call of `read_file`,
`_extract_read_file`; and a caller that reads a file on from the line after the
last one reported, until that is the file's last line.
-/

namespace Cograph.Checkout

/-! ## Records -/

/-- The evidence of a source file. -/
structure FileRecord where
  recordId : Str
  filePath : Str
  startLine : Option Nat
  endLine : Option Nat
  snippet : Str

/-- What the tool was called with. -/
structure ReadPayload where
  path : Option Str
  offset : Option Int

/-- `_opt_int`. -/
def optInt (value : Option Int) : Option Nat := (value.filter (0 < ·)).map Int.toNat

/-- A line number as it is printed. -/
def lineText (n : Option Nat) : Str := (n.elim "None" toString).toList

/-- `_file_record_id`. -/
def fileRecordId (path : Str) (start stop : Option Nat) : Str :=
  if start = none ∧ stop = none then "file:".toList ++ path
  else if start = stop ∨ stop = none then "file:".toList ++ path ++ ":".toList ++ lineText start
  else "file:".toList ++ path ++ ":".toList ++ lineText start ++ "-".toList ++ lineText stop

/-- `_extract_read_file`. The body is under neither of the keys that the snippet
is taken from. -/
def extractReadFile (payload : ReadPayload) (result : ReadResult) : List FileRecord :=
  match AgentTools.optStr (if pathText result.path = [] then payload.path else some (pathText result.path)) with
  | none => []
  | some path =>
    let start := optInt (if result.startLine = 0 then payload.offset else some result.startLine)
    let stop := optInt (some result.endLine)
    [{ recordId := fileRecordId path start stop, filePath := path, startLine := start, endLine := stop, snippet := [] }]

/-! ## Pages -/

/-- The results of reading on from an offset, page after page, until a page ends
with the last line. -/
def pages (read : Int → Except CheckoutFsError ReadResult) : Nat → Int → Option (List ReadResult)
  | 0, _ => none
  | fuel + 1, offset =>
    match read offset with
    | .error _ => none
    | .ok r => if r.endLine = r.totalLines then some [r] else (pages read fuel (r.endLine + 1)).map (r :: ·)

end Cograph.Checkout

/-!
## What the pages of a file show

A caller that reads a file page by page always reaches its end, and has read all
of it just where no page is over the cap on bytes; and a record names just the
lines that its call has shown where that call was not cut.
-/

namespace Cograph.Checkout

/-- Lines put together to a body. -/
def joined (lines : List Str) : Str := List.intercalate ['\n'] lines

/-- What is shown of lines: all of them, or what is within the cap. -/
def shown (lines : List Str) : Str :=
  if maxBytesRead < byteLength (joined lines) then takeBytes maxBytesRead (joined lines) else joined lines

/-- The lines put together are within the cap on bytes. -/
def Fits (lines : List Str) : Prop := byteLength (joined lines) ≤ maxBytesRead

/-- How many lines a call shows at most. -/
def lineCap (limit : Int) : Nat :=
  (max 1 (min (if limit = 0 then (maxLinesRead : Int) else limit) maxLinesRead)).toNat

/-- The lines from an index on that a call shows. -/
def window (text : Str) (limit : Int) (index : Nat) : List Str := ((Str.splitlines text).drop index).take (lineCap limit)

/-- The lines a record names; no end is known of none. -/
def claimed (text : Str) (record : FileRecord) : List Str :=
  ((Str.splitlines text).take (record.endLine.getD 0)).drop (record.startLine.getD 1 - 1)

/-! ## The cap on bytes -/

theorem byteLength_takeBytes (s : Str) : ∀ n, byteLength (takeBytes n s) ≤ n := by
  induction s with
  | nil => simp [takeBytes, byteLength]
  | cons c s ih =>
    intro n
    unfold takeBytes
    split
    · next hc =>
      have hrest := ih (n - c.utf8Size)
      unfold byteLength at hrest ⊢
      rw [List.map_cons, List.sum_cons]
      omega
    · simp [byteLength]

theorem takeBytes_before (s : Str) : ∀ n, takeBytes n s <+: s := by
  induction s with
  | nil => simp [takeBytes]
  | cons c s ih =>
    intro n
    unfold takeBytes
    split
    · exact (List.prefix_cons_inj c).2 (ih _)
    · exact List.nil_prefix

theorem shown_of_fits {lines : List Str} (h : Fits lines) : shown lines = joined lines := if_neg (Nat.not_lt.2 h)

theorem shown_length_le (lines : List Str) : (shown lines).length ≤ (joined lines).length := by
  unfold shown
  split
  · exact (takeBytes_before _ _).length_le
  · exact le_rfl

theorem shown_length_lt {lines : List Str} (h : ¬Fits lines) : (shown lines).length < (joined lines).length := by
  have hcut : maxBytesRead < byteLength (joined lines) := Nat.not_le.1 h
  rw [shown, if_pos hcut]
  refine lt_of_le_of_ne (takeBytes_before _ _).length_le fun hlen => ?_
  have hwhole := (takeBytes_before (joined lines) maxBytesRead).eq_of_length hlen
  have hcap := byteLength_takeBytes (joined lines) maxBytesRead
  rw [hwhole] at hcap
  exact h hcap

theorem shown_iff (lines : List Str) : shown lines = joined lines ↔ Fits lines := by
  constructor
  · intro heq
    by_contra h
    exact absurd (shown_length_lt h) (by rw [heq]; exact lt_irrefl _)
  · exact shown_of_fits

theorem fits_nil : Fits [] := Nat.zero_le _

/-! ## One call -/

section
variable {t : Tree} {steps : Nat} {root : List Comp} {path text : Str} {top target : Loc}

theorem readFile_eq (hplace : resolve t steps root path = .ok (top, target))
    (hfile : t.find target = some (.file false text)) (offset limit : Int) :
    readFile t steps root path offset limit =
      .ok (readLines ((target.drop top.length).map .name) text offset limit) := by
  unfold readFile
  rw [hplace]
  simp only [hfile]
  rfl

end

theorem lineCap_pos (limit : Int) : 0 < lineCap limit := by
  unfold lineCap
  omega

theorem readLines_body (p : List Comp) (text : Str) (offset limit : Int) :
    (readLines p text offset limit).body = shown (window text limit ((max 1 offset).toNat - 1)) := by
  have hlines : ∀ l : List Str, ∀ a n, (l.take (min (a + n) l.length)).drop a = (l.drop a).take n := by
    intro l a n
    rw [← List.take_take, List.take_length, List.drop_take, Nat.add_sub_cancel_left]
  unfold readLines
  dsimp only
  rw [hlines]
  rfl

theorem readLines_endLine (p : List Comp) (text : Str) (offset limit : Int) :
    (readLines p text offset limit).endLine =
      min ((max 1 offset).toNat - 1 + lineCap limit) (Str.splitlines text).length := rfl

theorem optInt_nat (n : Nat) : optInt (some n) = if n = 0 then none else some n := by
  unfold optInt
  by_cases h : n = 0
  · simp [h]
  · simp [h, Nat.pos_of_ne_zero h]

theorem extractReadFile_lines {payload : ReadPayload} {r : ReadResult} {record : FileRecord}
    (h : record ∈ extractReadFile payload r) (hstart : r.startLine ≠ 0) :
    record.startLine = some r.startLine ∧ record.endLine.getD 0 = r.endLine := by
  unfold extractReadFile at h
  split at h
  · cases h
  · simp only [List.mem_singleton] at h
    subst h
    rw [if_neg hstart, optInt_nat, optInt_nat, if_neg hstart]
    refine ⟨rfl, ?_⟩
    by_cases hend : r.endLine = 0 <;> simp [hend]

/-- The lines a record names are those that the call was to show. -/
theorem claimed_eq {payload : ReadPayload} {p : List Comp} {text : Str} {offset limit : Int} {record : FileRecord}
    (h : record ∈ extractReadFile payload (readLines p text offset limit)) :
    claimed text record = window text limit ((max 1 offset).toNat - 1) := by
  have hpos : (readLines p text offset limit).startLine ≠ 0 := by
    show (max 1 offset).toNat ≠ 0
    omega
  obtain ⟨hstart, hend⟩ := extractReadFile_lines h hpos
  have hfirst : (readLines p text offset limit).startLine = (max 1 offset).toNat := rfl
  unfold claimed window
  rw [hstart, hend, hfirst, readLines_endLine, Option.getD_some, ← List.take_take, List.take_length, List.drop_take,
    Nat.add_sub_cancel_left]

/-! ## All calls -/

/-- The windows that follow one another from an index on, up to the last line. -/
structure Windows (text : Str) (limit : Int) (index : Nat) (ws : List (List Str)) : Prop where
  flat : ws.flatten = (Str.splitlines text).drop index
  nonempty : ∀ w ∈ ws, w ≠ []
  only : ∀ w ∈ ws, ∃ k, w = window text limit (index + k * lineCap limit)
  every : ∀ k, index + k * lineCap limit < (Str.splitlines text).length →
    window text limit (index + k * lineCap limit) ∈ ws

section
variable {text : Str} {limit : Int} {index : Nat}

theorem window_ne_nil (h : index < (Str.splitlines text).length) : window text limit index ≠ [] := by
  have hcap := lineCap_pos limit
  unfold window
  rw [ne_eq, List.take_eq_nil_iff, List.drop_eq_nil_iff]
  omega

theorem windows_last (h : index < (Str.splitlines text).length)
    (hlast : (Str.splitlines text).length ≤ index + lineCap limit) :
    Windows text limit index [window text limit index] where
  flat := by
    rw [List.flatten_singleton, window, List.take_of_length_le]
    rw [List.length_drop]
    omega
  nonempty := by
    intro w hw
    rw [List.mem_singleton] at hw
    rw [hw]
    exact window_ne_nil h
  only w hw := ⟨0, by simpa using hw⟩
  every k hk := by
    have hzero : k = 0 := by
      by_contra hk0
      have := Nat.le_mul_of_pos_left (lineCap limit) (Nat.pos_of_ne_zero hk0)
      omega
    simp [hzero]

theorem windows_step {ws : List (List Str)} (h : index < (Str.splitlines text).length)
    (hws : Windows text limit (index + lineCap limit) ws) :
    Windows text limit index (window text limit index :: ws) where
  flat := by
    rw [List.flatten_cons, hws.flat, window, ← List.drop_drop]
    exact List.take_append_drop _ _
  nonempty := by
    rintro w (_ | ⟨_, hw⟩)
    · exact window_ne_nil h
    · exact hws.nonempty w hw
  only := by
    rintro w (_ | ⟨_, hw⟩)
    · exact ⟨0, by simp⟩
    · obtain ⟨k, rfl⟩ := hws.only w hw
      refine ⟨k + 1, ?_⟩
      rw [Nat.add_mul, Nat.one_mul, Nat.add_assoc, Nat.add_comm (lineCap limit)]
  every k hk := by
    cases k with
    | zero => simp
    | succ k =>
      rw [Nat.add_mul, Nat.one_mul, Nat.add_comm (k * _), ← Nat.add_assoc] at hk ⊢
      exact List.mem_cons_of_mem _ (hws.every k hk)

/-- Page after page, the windows are shown one by one; the induction is on the
lines that are left. -/
theorem pages_from (p : List Comp) (m : Nat) : ∀ index, (Str.splitlines text).length = index + m → 0 < m →
    ∃ ps ws, Windows text limit index ws ∧ ps.map (·.body) = ws.map shown ∧
      ∀ fuel, m ≤ fuel → pages (fun o => .ok (readLines p text o limit)) fuel (index + 1) = some ps := by
  induction m using Nat.strong_induction_on with
  | _ m ih =>
    intro index hlen hm
    have hcap := lineCap_pos limit
    have hindex : (max 1 ((index : Int) + 1)).toNat - 1 = index := by omega
    have hbody := readLines_body p text (index + 1) limit
    have hend := readLines_endLine p text (index + 1) limit
    have htotal : (readLines p text (index + 1) limit).totalLines = index + m := hlen
    rw [hindex] at hbody hend
    by_cases hlast : m ≤ lineCap limit
    · have hstop : (readLines p text (index + 1) limit).endLine = index + m := by
        rw [hend]
        omega
      refine ⟨[readLines p text (index + 1) limit], [window text limit index],
        windows_last (by omega) (by omega), by simp [hbody], ?_⟩
      intro fuel hfuel
      obtain ⟨fuel, rfl⟩ := Nat.exists_eq_add_of_le' (Nat.lt_of_lt_of_le hm hfuel)
      unfold pages
      simp only [hstop, htotal, if_true]
    · obtain ⟨ps, ws, hws, hbodies, hps⟩ :=
        ih (m - lineCap limit) (by omega) (index + lineCap limit) (by omega) (by omega)
      have hstop : (readLines p text (index + 1) limit).endLine = index + lineCap limit := by
        rw [hend]
        omega
      refine ⟨readLines p text (index + 1) limit :: ps, window text limit index :: ws,
        windows_step (by omega) hws, by simp [hbody, hbodies], ?_⟩
      intro fuel hfuel
      obtain ⟨fuel, rfl⟩ := Nat.exists_eq_add_of_le' (Nat.lt_of_lt_of_le hm hfuel)
      unfold pages
      simp only [hstop, htotal]
      rw [if_neg (by omega), hps fuel (by omega)]
      rfl

/-! ## What all pages show -/

theorem joined_windows {ws : List (List Str)} (h : Windows text limit index ws) :
    joined (ws.map joined) = joined ((Str.splitlines text).drop index) := by
  rw [← h.flat]
  exact Joins.intercalate_flatten h.nonempty

theorem joined_shown_lt {ws : List (List Str)} (h : ∃ w ∈ ws, ¬Fits w) :
    (joined (ws.map shown)).length < (joined (ws.map joined)).length := by
  have hlt : (ws.map fun w => (shown w).length).sum < (ws.map fun w => (joined w).length).sum :=
    List.sum_lt_sum _ _ (fun w _ => shown_length_le w) (h.imp fun w hw => ⟨hw.1, shown_length_lt hw.2⟩)
  cases ws with
  | nil => simp at hlt
  | cons w ws =>
    unfold joined at hlt ⊢
    rw [List.map_cons, List.map_cons, Joins.length_intercalate, Joins.length_intercalate, ← List.map_cons, ← List.map_cons,
      List.map_map, List.map_map, List.length_map, List.length_map]
    exact Nat.add_lt_add_right hlt _

theorem shown_windows_iff {ws : List (List Str)} (h : Windows text limit 0 ws) :
    joined (ws.map shown) = joined (Str.splitlines text) ↔ ∀ k, Fits (window text limit (k * lineCap limit)) := by
  have hall := joined_windows h
  rw [List.drop_zero] at hall
  constructor
  · intro heq k
    by_contra hcut
    have hk : k * lineCap limit < (Str.splitlines text).length := by
      by_contra hge
      refine hcut ?_
      rw [window, List.drop_of_length_le (Nat.not_lt.1 hge), List.take_nil]
      exact fits_nil
    have hin := h.every k (by simpa using hk)
    rw [Nat.zero_add] at hin
    have hlt := joined_shown_lt ⟨_, hin, hcut⟩
    rw [heq, hall] at hlt
    exact lt_irrefl _ hlt
  · intro hfits
    rw [← hall]
    congr 1
    refine List.map_congr_left fun w hw => shown_of_fits ?_
    obtain ⟨k, rfl⟩ := h.only w hw
    simpa using hfits k

/-- From the first line on, the pages come to an end; what they show is the
whole file just where none of them is cut. -/
theorem paged (p : List Comp) (text : Str) (limit : Int) :
    ∃ ps, (∃ enough, ∀ fuel, enough ≤ fuel → pages (fun o => .ok (readLines p text o limit)) fuel 1 = some ps) ∧
      (joined (ps.map (·.body)) = joined (Str.splitlines text) ↔
        ∀ k, Fits (window text limit (k * lineCap limit))) := by
  by_cases hnil : (Str.splitlines text).length = 0
  · have hempty := List.length_eq_zero_iff.1 hnil
    have hwindow : ∀ index, window text limit index = [] := by
      intro index
      rw [window, hempty, List.drop_nil, List.take_nil]
    refine ⟨[readLines p text 1 limit], ⟨1, fun fuel hfuel => ?_⟩, ?_⟩
    · obtain ⟨fuel, rfl⟩ := Nat.exists_eq_add_of_le' hfuel
      have hstop : (readLines p text 1 limit).endLine = (readLines p text 1 limit).totalLines := by
        rw [readLines_endLine, hnil, Nat.min_zero]
        exact hnil.symm
      unfold pages
      simp only [hstop, if_true]
    · rw [List.map_singleton, readLines_body, hwindow, shown_of_fits fits_nil, hempty]
      simp only [hwindow]
      exact ⟨fun _ _ => fits_nil, fun _ => rfl⟩
  · obtain ⟨ps, ws, hws, hbodies, hps⟩ :=
      @pages_from text limit p _ 0 (Nat.zero_add _).symm (Nat.pos_of_ne_zero hnil)
    refine ⟨ps, ⟨_, fun fuel hfuel => by simpa using hps fuel hfuel⟩, ?_⟩
    rw [hbodies]
    exact shown_windows_iff hws

end

/-! ## Reading a file of the checkout -/

/-- Reading a file on, page after page, comes to its end, and has read all of it
just where no page is over the cap; the record of a call names the lines that are
shown just where the call's own lines are not over it. -/
theorem paging_reads_all (t : Tree) (steps : Nat) (root : List Comp) (path text : Str) (top target : Loc)
    (hplace : resolve t steps root path = .ok (top, target)) (hfile : t.find target = some (.file false text)) :
    (∀ limit : Int, 0 < limit → ∃ ps,
      (∃ enough, ∀ fuel, enough ≤ fuel → pages (readFile t steps root path · limit) fuel 1 = some ps) ∧
      (joined (ps.map (·.body)) = joined (Str.splitlines text) ↔
        ∀ k, Fits (window text limit (k * lineCap limit)))) ∧
    ∀ (offset limit : Int) (r : ReadResult), readFile t steps root path offset limit = .ok r →
      ∀ payload, ∀ record ∈ extractReadFile payload r,
        (r.body = joined (claimed text record) ↔ Fits (window text limit ((max 1 offset).toNat - 1))) := by
  have hread := fun offset limit => readFile_eq hplace hfile offset limit
  constructor
  · intro limit _
    simp only [hread]
    exact paged _ text limit
  · intro offset limit r hr payload record hrecord
    rw [hread] at hr
    cases hr
    rw [claimed_eq hrecord, readLines_body]
    exact shown_iff _

/-- A checkout of one file. -/
def oneFile (text : Str) : Tree where
  nodes := [(["log".toList], .file false text)]
  distinct := List.nodup_singleton _
  rooted := by simp

theorem resolve_oneFile (text : Str) : resolve (oneFile text) 1 [] "log".toList = .ok ([], ["log".toList]) := by
  have hwalk : (oneFile text).walk 1 [] [.name "log".toList] = some ["log".toList] := rfl
  have htop : (oneFile text).walk 1 [] [] = some [] := rfl
  have hcomps : comps "log".toList = [.name "log".toList] := by decide
  unfold resolve
  rw [if_neg (by decide), if_neg (by decide), hcomps, List.nil_append, hwalk, htop]
  rfl

theorem paging_reads_all_short : ∃ ps,
    (∃ enough, ∀ fuel, enough ≤ fuel →
      pages (readFile (oneFile "a\nb\nc".toList) 1 [] "log".toList · 2) fuel 1 = some ps) ∧
    (joined (ps.map (·.body)) = joined (Str.splitlines "a\nb\nc".toList) ↔
      ∀ k, Fits (window "a\nb\nc".toList 2 (k * lineCap 2))) :=
  (paging_reads_all _ _ _ _ _ _ _ (resolve_oneFile _) rfl).1 2 (by decide)

/-- One line, a byte longer than the cap. -/
def longLine : Str := List.replicate (maxBytesRead + 1) 'a'

theorem longLine_lines : Str.splitlines longLine = [longLine] := by
  refine Str.splitlines_line (fun c hc => ?_) ?_
  · rw [List.eq_of_mem_replicate hc]
    decide
  · unfold longLine
    rw [ne_eq, List.replicate_eq_nil_iff]
    omega

theorem longLine_window (limit : Int) : window longLine limit 0 = [longLine] := by
  rw [window, longLine_lines, List.drop_zero, List.take_of_length_le (lineCap_pos limit)]

theorem longLine_cut : ¬Fits [longLine] := by
  have hone : ('a' : Char).utf8Size = 1 := by decide
  unfold Fits joined byteLength longLine
  rw [List.intercalate_singleton, List.map_replicate, List.sum_replicate, hone, smul_eq_mul]
  omega

/-- The last byte of a long line is in no page, and the record names the line. -/
theorem longLine_lost :
    (¬∃ ps, (∃ enough, ∀ fuel, enough ≤ fuel →
        pages (readFile (oneFile longLine) 1 [] "log".toList · 400) fuel 1 = some ps) ∧
      joined (ps.map (·.body)) = joined (Str.splitlines longLine)) ∧
    ∃ r, readFile (oneFile longLine) 1 [] "log".toList 1 400 = .ok r ∧
      ∃ record ∈ extractReadFile ⟨some "log".toList, some 1⟩ r, r.body ≠ joined (claimed longLine record) := by
  have hread := fun offset limit => readFile_eq (resolve_oneFile longLine) rfl offset limit
  constructor
  · rintro ⟨ps, ⟨enough, hps⟩, hall⟩
    simp only [hread] at hps
    obtain ⟨qs, ⟨bound, hqs⟩, hiff⟩ := paged [.name "log".toList] longLine 400
    have hsame : some ps = some qs :=
      (hps (max enough bound) (le_max_left _ _)).symm.trans (hqs (max enough bound) (le_max_right _ _))
    rw [← Option.some.inj hsame] at hiff
    have hfits := hiff.1 hall 0
    rw [Nat.zero_mul, longLine_window] at hfits
    exact longLine_cut hfits
  · obtain ⟨record, hrecord⟩ : ∃ record, record ∈ extractReadFile ⟨some "log".toList, some 1⟩
        (readLines (["log".toList].map .name) longLine 1 400) := ⟨_, List.mem_singleton.2 rfl⟩
    refine ⟨_, hread 1 400, record, hrecord, fun heq => ?_⟩
    rw [claimed_eq hrecord, readLines_body, shown_iff, show (max 1 (1 : Int)).toNat - 1 = 0 from rfl,
      longLine_window] at heq
    exact longLine_cut heq

end Cograph.Checkout
