import Cograph.ChunkerPacks
import Cograph.NonBlank

/-!
# Markdown chunks lose nothing

The chunks of a text have its lines in order, blank ones aside, they are
numbered from zero on, and a chunk is at most twice as long as the limit unless
it is one atomic block.
-/

namespace Cograph.MdChunks

theorem nonBlankLines_reading : Reading Str.nonBlankLines where
  empty := rfl
  strip := Str.nonBlankLines_strip
  feed := Str.nonBlankLines_feed

/-! ## Numbers -/

def Consecutive (chunks : List MdChunkDraft) : Prop := chunks.map (·.chunkIndex) = List.range chunks.length

theorem Consecutive.snoc {chunks : List MdChunkDraft} {draft : MdChunkDraft} (h : Consecutive chunks)
    (hd : draft.chunkIndex = chunks.length) : Consecutive (chunks ++ [draft]) := by
  unfold Consecutive at h ⊢
  rw [List.map_append, List.length_append, h, List.length_singleton, List.range_succ, List.map_singleton, hd]

theorem closeTail_consecutive {L : Limits} {chunks : List MdChunkDraft} {lines : List Str} {chars : Nat}
    {draft : MdChunkDraft} (h : Consecutive chunks) (hd : draft.chunkIndex = chunks.length) :
    Consecutive (closeTail L chunks lines chars draft) := by
  unfold closeTail
  split
  · exact h
  · split
    · exact h.snoc hd
    · next prev hlast =>
      split
      · obtain ⟨init, rfl⟩ := List.getLast?_eq_some_iff.mp hlast
        rw [List.dropLast_concat]
        unfold Consecutive at h ⊢
        simpa using h
      · exact h.snoc hd

theorem push_consecutive {chunks : List MdChunkDraft} (h : Consecutive chunks) (subs : List MdChunkDraft) :
    Consecutive (subs.foldl Acc.push chunks) :=
  List.foldlRecOn (motive := Consecutive) subs Acc.push h fun _ hcs _ _ => hcs.snoc rfl

theorem add_consecutive {L : Limits} {acc : Acc} (h : Consecutive acc.chunks) (s : Section) :
    Consecutive (acc.add L s).chunks := by
  have hflush : Consecutive acc.flush.chunks := by
    unfold Acc.flush
    split
    · exact h
    · exact h.snoc rfl
  unfold Acc.add
  split
  · exact push_consecutive hflush _
  · dsimp only
    split
    · exact hflush
    · exact h

theorem chunk_consecutive (P : Py) (L : Limits) (text : Str) : Consecutive (chunk P L text) := by
  have hall : Consecutive (allChunks P L text) :=
    closeTail_consecutive (List.foldlRecOn (motive := fun acc => Consecutive acc.chunks) _ (Acc.add L)
      (show Consecutive ([] : List MdChunkDraft) from rfl) fun _ h s _ => add_consecutive h s) rfl
  unfold Consecutive at hall ⊢
  rw [chunk, List.map_take, hall, List.length_take, List.take_range]

/-! ## Sizes -/

theorem strip_length_le (s : Str) : (Str.strip s).length ≤ s.length := by
  have hl : ∀ s : Str, (Str.lstrip s).length ≤ s.length := fun s => (List.dropWhile_sublist _).length_le
  have hr : ∀ s : Str, (Str.rstrip s).length ≤ s.length := by
    intro s
    rw [Str.rstrip, List.length_reverse]
    exact (List.dropWhile_sublist _).length_le.trans (by simp)
  exact (hr _).trans (hl s)

/-- At most twice as long as the limit, or one of the atomic blocks. -/
def Bounded (L : Limits) (blocks : List (List Str)) (c : MdChunkDraft) : Prop :=
  c.content.length ≤ L.maxChars * 2 ∨ ∃ b ∈ blocks, c.content = Str.strip (joinLines b)

section
variable {L : Limits} {blocks : List (List Str)}

theorem bounded_snoc {chunks : List MdChunkDraft} {draft : MdChunkDraft} (h : ∀ c ∈ chunks, Bounded L blocks c)
    (hd : Bounded L blocks draft) : ∀ c ∈ chunks ++ [draft], Bounded L blocks c := by
  intro c hc
  rcases List.mem_append.mp hc with hc | hc
  · exact h c hc
  · exact List.mem_singleton.mp hc ▸ hd

/-- Lines that the limit lets into one chunk. -/
theorem content_bounded {lines : List Str} {chars : Nat} (hne : lines ≠ []) (hw : weight lines ≤ chars)
    (hc : chars ≤ L.maxChars + 1) : (Str.strip (joinLines lines)).length ≤ L.maxChars * 2 := by
  have hstrip := strip_length_le (joinLines lines)
  have hsize := size_succ hne
  unfold size at hsize
  omega

theorem closeTail_bounded {chunks : List MdChunkDraft} {lines : List Str} {chars : Nat} {draft : MdChunkDraft}
    (h : ∀ c ∈ chunks, Bounded L blocks c) (hdraft : draft.content = Str.strip (joinLines lines))
    (hw : weight lines ≤ chars) (hc : chars ≤ L.maxChars + 1) :
    ∀ c ∈ closeTail L chunks lines chars draft, Bounded L blocks c := by
  unfold closeTail
  by_cases hne : lines = []
  · rw [if_pos hne]
    exact h
  rw [if_neg hne]
  have hd : Bounded L blocks draft := Or.inl (hdraft ▸ content_bounded hne hw hc)
  split
  · exact bounded_snoc h hd
  · next prev hlast =>
    split
    · next hmerge =>
      refine bounded_snoc (fun c hc => h c (List.mem_of_mem_dropLast hc)) (Or.inl ?_)
      dsimp only
      have hsize := size_succ hne
      have htail := strip_length_le (joinLines lines)
      unfold size at hsize
      split
      · omega
      · have hall := strip_length_le (prev.content ++ '\n' :: Str.strip (joinLines lines))
        rw [List.length_append, List.length_cons] at hall
        omega
    · exact bounded_snoc h hd

/-- The buffer of a packing that the limit holds for. -/
structure Room (L : Limits) (buffer : List Str) (chars : Nat) : Prop where
  counted : weight buffer ≤ chars
  within : chars ≤ L.maxChars + 1
  empty : buffer = [] → chars = 0

theorem split_room {s : Section} {st : Split} {block : List Str} (hne : block ≠ [])
    (h : Room L st.buffer st.bufChars) : Room L (st.add L s block).buffer (st.add L s block).bufChars := by
  have hblock := weight_le block
  have hflush : Room L (st.flush s).buffer (st.flush s).bufChars ∧ (st.flush s).bufChars = 0 := by
    unfold Split.flush
    split
    · next hb => exact ⟨h, h.empty hb⟩
    · exact ⟨⟨by simp, by simp, fun _ => rfl⟩, rfl⟩
  unfold Split.add
  split
  · exact hflush.1
  · next hsmall =>
    dsimp only
    split
    · refine ⟨?_, ?_, fun hnil => absurd (List.append_eq_nil_iff.1 hnil).2 hne⟩
      · have := hflush.1.counted
        rw [weight_append]
        omega
      · rw [hflush.2]
        omega
    · refine ⟨?_, by omega, fun hnil => absurd (List.append_eq_nil_iff.1 hnil).2 hne⟩
      have := h.counted
      rw [weight_append]
      omega

theorem split_bounded {s : Section} {st : Split} {block : List Str} (hb : block ∈ blocks)
    (hroom : Room L st.buffer st.bufChars) (h : ∀ c ∈ st.chunks, Bounded L blocks c) :
    ∀ c ∈ (st.add L s block).chunks, Bounded L blocks c := by
  have hflush : ∀ c ∈ (st.flush s).chunks, Bounded L blocks c := by
    unfold Split.flush
    split
    · exact h
    · next hne => exact bounded_snoc h (Or.inl (content_bounded hne hroom.counted hroom.within))
  unfold Split.add
  split
  · exact bounded_snoc hflush (Or.inr ⟨block, hb, rfl⟩)
  · dsimp only
    split
    · exact hflush
    · exact h

theorem splitSection_bounded (L : Limits) (s : Section) :
    ∀ c ∈ splitSection L s, Bounded L (groupAtomicBlocks s.lines) c := by
  have hne : ∀ b ∈ groupAtomicBlocks s.lines, b ≠ [] := groupFrom_ne_nil _ _ _
  obtain ⟨hroom, hall⟩ := List.foldlRecOn
    (motive := fun st : Split => Room L st.buffer st.bufChars ∧ ∀ c ∈ st.chunks, Bounded L (groupAtomicBlocks s.lines) c)
    (groupAtomicBlocks s.lines) (Split.add L s) (b := ⟨[], [], 0⟩) ⟨⟨by simp, by simp, fun _ => rfl⟩, by simp⟩
    fun st h block hb => ⟨split_room (hne block hb) h.1, split_bounded hb h.1 h.2⟩
  exact closeTail_bounded hall rfl hroom.counted hroom.within

theorem flush_room {acc : Acc} (h : Room L acc.buffer acc.chars) :
    Room L acc.flush.buffer acc.flush.chars ∧ acc.flush.chars = 0 := by
  unfold Acc.flush
  split
  · next hb => exact ⟨h, h.empty hb⟩
  · exact ⟨⟨by simp [Acc.buffer], by simp, fun _ => rfl⟩, rfl⟩

theorem add_room {acc : Acc} {s : Section} (hne : s.lines ≠ []) (h : Room L acc.buffer acc.chars) :
    Room L (acc.add L s).buffer (acc.add L s).chars := by
  have hlines := weight_le s.lines
  obtain ⟨hroom, hzero⟩ := flush_room h
  have happend : ∀ (acc : Acc) (n : Nat), (⟨acc.chunks, acc.pending ++ [s], n⟩ : Acc).buffer = acc.buffer ++ s.lines := by
    intro acc n
    simp [Acc.buffer]
  unfold Acc.add
  split
  · exact hroom
  · dsimp only
    split
    · rw [happend]
      refine ⟨?_, ?_, fun hnil => absurd (List.append_eq_nil_iff.1 hnil).2 hne⟩
      · have := hroom.counted
        rw [weight_append]
        omega
      · rw [hzero]
        omega
    · rw [happend]
      refine ⟨?_, by omega, fun hnil => absurd (List.append_eq_nil_iff.1 hnil).2 hne⟩
      have := h.counted
      rw [weight_append]
      omega

theorem push_bounded {chunks subs : List MdChunkDraft} (h : ∀ c ∈ chunks, Bounded L blocks c)
    (hs : ∀ c ∈ subs, Bounded L blocks c) : ∀ c ∈ subs.foldl Acc.push chunks, Bounded L blocks c :=
  List.foldlRecOn (motive := fun cs => ∀ c ∈ cs, Bounded L blocks c) subs Acc.push h
    fun _ hcs sub hsub => bounded_snoc hcs (hs sub hsub)

theorem add_bounded {acc : Acc} {s : Section} (hs : ∀ b ∈ groupAtomicBlocks s.lines, b ∈ blocks)
    (hroom : Room L acc.buffer acc.chars) (h : ∀ c ∈ acc.chunks, Bounded L blocks c) :
    ∀ c ∈ (acc.add L s).chunks, Bounded L blocks c := by
  have hflush : ∀ c ∈ acc.flush.chunks, Bounded L blocks c := by
    unfold Acc.flush
    split
    · exact h
    · next hne => exact bounded_snoc h (Or.inl (content_bounded hne hroom.counted hroom.within))
  unfold Acc.add
  split
  · exact push_bounded hflush fun c hc => (splitSection_bounded L s c hc).imp_right fun ⟨b, hb, he⟩ => ⟨b, hs b hb, he⟩
  · dsimp only
    split
    · exact hflush
    · exact h

end

theorem allChunks_bounded (P : Py) (L : Limits) (text : Str) :
    ∀ c ∈ allChunks P L text, Bounded L (units P text) c := by
  have hne : ∀ s ∈ sectionsOf P text, s.lines ≠ [] := splitFrom_ne_nil P _ _
  have hunits : ∀ s ∈ sectionsOf P text, ∀ b ∈ groupAtomicBlocks s.lines, b ∈ units P text := fun s hs b hb =>
    List.mem_flatMap.mpr ⟨s, hs, hb⟩
  obtain ⟨hroom, hall⟩ := List.foldlRecOn
    (motive := fun acc : Acc => Room L acc.buffer acc.chars ∧ ∀ c ∈ acc.chunks, Bounded L (units P text) c)
    (sectionsOf P text) (Acc.add L) (b := ⟨[], [], 0⟩) ⟨⟨by simp [Acc.buffer], by simp, fun _ => rfl⟩, by simp⟩
    fun acc h s hs => ⟨add_room (hne s hs) h.1, add_bounded (hunits s hs) h.1 h.2⟩
  exact closeTail_bounded hall rfl hroom.counted hroom.within

/-- **Chunks lose nothing.** The chunks of a text that the cap does not cut have
its lines in order, blank ones aside, are numbered from zero on, and each is at
most twice as long as the limit or one atomic block. -/
theorem chunks_lossless (P : Py) (L : Limits) (text : Str) (h : (allChunks P L text).length ≤ L.maxChunks) :
    (chunk P L text).flatMap (fun c => Str.nonBlankLines c.content) = Str.nonBlankLines text ∧
      (chunk P L text).map (·.chunkIndex) = List.range (chunk P L text).length ∧
      ∀ c ∈ chunk P L text, c.content.length ≤ L.maxChars * 2 ∨
        ∃ b ∈ units P text, c.content = Str.strip (joinLines b) := by
  refine ⟨?_, chunk_consecutive P L text, fun c hc => allChunks_bounded P L text c (List.mem_of_mem_take hc)⟩
  have hreads := chunk_readsAs nonBlankLines_reading P L text
  have hcontent : (chunk P L text).flatMap (fun c => Str.nonBlankLines c.content) =
      (chunk P L text).flatMap fun c => c.lines.flatMap Str.nonBlankLines := by
    rw [List.flatMap_def, List.flatMap_def, List.map_congr_left hreads]
  rw [hcontent, ← List.flatMap_assoc]
  have hlines : (chunk P L text).flatMap (·.lines) = Str.splitlines text := by
    rw [chunk, List.take_of_length_le h, ← allChunks_flatten P L text]
    exact List.flatMap_def ..
  rw [hlines, Str.splitlines_nonBlank]

theorem chunks_lossless_two :
    let text := "# a\n\nb".toList
    (chunk ⟨id, fun _ => true⟩ {} text).flatMap (fun c => Str.nonBlankLines c.content) = Str.nonBlankLines text ∧
      (chunk ⟨id, fun _ => true⟩ {} text).map (·.chunkIndex) = List.range (chunk ⟨id, fun _ => true⟩ {} text).length ∧
      ∀ c ∈ chunk ⟨id, fun _ => true⟩ {} text, c.content.length ≤ 4000 * 2 ∨
        ∃ b ∈ units ⟨id, fun _ => true⟩ text, c.content = Str.strip (joinLines b) :=
  chunks_lossless ⟨id, fun _ => true⟩ {} "# a\n\nb".toList (by decide)

end Cograph.MdChunks
