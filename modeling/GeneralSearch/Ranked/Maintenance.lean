import GeneralSearch.Query.Maintenance
import GeneralSearch.Ranked.TextIndexBuilder

/-! Text indexes that their builders maintain, and snapshots all of whose indexes are maintained: they
are in sync with their documents, and they plan and search as snapshots do that were built from
scratch. -/

namespace GeneralSearch.Ranked

open GeneralSearch.Index GeneralSearch.Lib GeneralSearch.Planner GeneralSearch.Storage

variable {T : Type} {S : Schema T}

/-! ### Maintained text indexes -/

section

variable (analyze : T → Except Failure AnalyzedDocument)

/-- The builders that calls consistent with the documents lead to, and builds at any points. -/
inductive MaintainedText : TextIndexBuilder → (ℕ → Option T) → Prop
  | empty : MaintainedText TextIndexContents.empty.toBuilder fun _ => none
  | add {b b' docs d t} : MaintainedText b docs → docs d = none → b.add analyze d t = .ok b' →
      MaintainedText b' (Function.update docs d (some t))
  | remove {b b' docs d t} : MaintainedText b docs → docs d = some t →
      b.remove analyze d t = .ok b' → MaintainedText b' (Function.update docs d none)
  | update {b b' docs d t t'} : MaintainedText b docs → docs d = some t →
      b.update analyze d t t' = .ok b' → MaintainedText b' (Function.update docs d (some t'))
  | build {b docs order contents} : MaintainedText b docs → order.Perm b.dirty →
      b.build order = .ok contents → MaintainedText contents.toBuilder docs

/-- The analysis of a document, empty where there is none. -/
def analysisOf (docs : ℕ → Option T) (d : ℕ) : AnalyzedDocument :=
  match docs d with
  | none => .empty
  | some t =>
    match analyze t with
    | .ok document => document
    | .error _ => .empty

variable {analyze} {docs : ℕ → Option T} {b : TextIndexBuilder} {d : ℕ} {t : T}

theorem analysisOf_none (h : docs d = none) : analysisOf analyze docs d = .empty := by
  unfold analysisOf
  rw [h]

theorem analysisOf_some {document : AnalyzedDocument} (h : docs d = some t)
    (ht : analyze t = .ok document) : analysisOf analyze docs d = document := by
  unfold analysisOf
  rw [h]
  simp only [ht]

theorem analysisOf_update {new : Option T} {document : AnalyzedDocument}
    (h : analysisOf analyze (fun _ => new) d = document) :
    analysisOf analyze (Function.update docs d new) =
      Function.update (analysisOf analyze docs) d document := by
  funext e
  by_cases he : e = d
  · subst he
    rw [Function.update_self, ← h]
    unfold analysisOf
    rw [Function.update_self]
  · unfold analysisOf
    rw [Function.update_of_ne he, Function.update_of_ne he]

/-- What held of every document and holds of the new one. -/
theorem forall_update {P : T → Prop} {new : Option T} (h : ∀ d t, docs d = some t → P t)
    (hnew : ∀ t, new = some t → P t) (e : ℕ) (u : T)
    (he : Function.update docs d new e = some u) : P u := by
  by_cases hed : e = d
  · subst hed
    rw [Function.update_self] at he
    exact hnew u he
  · rw [Function.update_of_ne hed] at he
    exact h e u he

theorem same_refl (document : AnalyzedDocument) : TextIndexBuilder.Same document document :=
  ⟨fun _ => rfl, rfl⟩

open TextIndexBuilder in
/-- The builder has taken up the analyses of the documents, all of which could be analyzed. -/
theorem MaintainedText.tracks (h : MaintainedText analyze b docs) :
    Tracks b (analysisOf analyze docs) ∧
      ∀ d t, docs d = some t → ∃ document, analyze t = .ok document := by
  induction h with
  | empty => exact ⟨shows_empty.toBuilder, by simp⟩
  | @add b b' docs d t _ hd hadd ih =>
    obtain ⟨document, ht, happly⟩ := bind_eq_ok.mp hadd
    have hnew : analysisOf analyze (fun _ => some t) d = document := analysisOf_some rfl ht
    refine ⟨analysisOf_update hnew ▸ ih.1.apply (analysisOf_none hd ▸ same_refl _) happly,
      forall_update ih.2 ?_⟩
    rintro _ ⟨⟩
    exact ⟨document, ht⟩
  | @remove b b' docs d t _ hd hremove ih =>
    obtain ⟨document, ht, happly⟩ := bind_eq_ok.mp hremove
    have hnew : analysisOf analyze (fun _ => none) d = .empty := analysisOf_none rfl
    exact ⟨analysisOf_update hnew ▸ ih.1.apply (analysisOf_some hd ht ▸ same_refl _) happly,
      forall_update ih.2 nofun⟩
  | @update b b' docs d t t' _ hd hupdate ih =>
    obtain ⟨document, ht, hrest⟩ := bind_eq_ok.mp hupdate
    obtain ⟨document', ht', happly⟩ := bind_eq_ok.mp hrest
    have hnew : analysisOf analyze (fun _ => some t') d = document' := analysisOf_some rfl ht'
    refine ⟨analysisOf_update hnew ▸ ih.1.apply (analysisOf_some hd ht ▸ same_refl _) happly,
      forall_update ih.2 ?_⟩
    rintro _ ⟨⟩
    exact ⟨document', ht'⟩
  | build _ horder hbuild ih => exact ⟨(ih.1.build horder hbuild).toBuilder, ih.2⟩

/-- Under a lawful order, trees of one map have the same entries. -/
theorem entries_eq {K V : Type} {compareTo : K → K → Ordering} [Std.TransCmp compareTo]
    [Std.LawfulEqCmp compareTo] [BEq V] [LawfulBEq V] {weightFunction : V → ℤ} {map : K → Option V}
    {root root' : AvlNode K V} (h : AvlChange.Holds compareTo weightFunction map root)
    (h' : AvlChange.Holds compareTo weightFunction map root') : root.entries = root'.entries := by
  refine List.forall₂_eq_eq_eq ▸ (h.forall₂ h').imp ?_
  rintro ⟨key, value⟩ ⟨key', value'⟩ ⟨hkey, hvalue⟩
  exact Prod.ext (Std.LawfulEqCmp.eq_of_compare hkey) hvalue

open TextIndexBuilder in
/-- Contents that show the same analyses hold the same posting lists. -/
theorem postings_unique {analyses : ℕ → AnalyzedDocument} {map map' : JString → Option PostingList}
    (hne : ∀ term posting, map term = some posting → posting.documentFrequency ≠ 0)
    (hne' : ∀ term posting, map' term = some posting → posting.documentFrequency ≠ 0)
    (h : ∀ term d, ((map term).getD .empty).positions d = ((analyses d).positions term).val)
    (h' : ∀ term d, ((map' term).getD .empty).positions d = ((analyses d).positions term).val) :
    map = map' := by
  funext term
  have hsame : (map term).getD .empty = (map' term).getD .empty :=
    PostingList.ext_positions fun d => (h term d).trans (h' term d).symm
  have hempty : PostingList.empty.documentFrequency = 0 := rfl
  cases hm : map term with
  | none =>
    cases hm' : map' term with
    | none => rfl
    | some posting' =>
      rw [hm, hm', Option.getD_none, Option.getD_some] at hsame
      exact absurd (hsame ▸ hempty) (hne' term posting' hm')
  | some posting =>
    cases hm' : map' term with
    | none =>
      rw [hm, hm', Option.getD_none, Option.getD_some] at hsame
      exact absurd (hsame ▸ hempty) (hne term posting hm)
    | some posting' =>
      rw [hm, hm', Option.getD_some, Option.getD_some] at hsame
      rw [hsame]

variable {b' : TextIndexBuilder} {order order' : List (JString × PostingList)}
  {contents contents' : TextIndexContents}

/-- However a text index was maintained, its posting lists, its document lengths, its trie with every
node and its total are those of every other one over the same documents: of one built from scratch,
too.  They are what the analyses of the documents say, the terms with postings are the terms of the
trie, and the checks of the constructor refuse no build. -/
theorem text_eq_rebuild (h : MaintainedText analyze b docs) (h' : MaintainedText analyze b' docs)
    (horder : order.Perm b.dirty) (horder' : order'.Perm b'.dirty)
    (hbuild : b.build order = .ok contents) (hbuild' : b'.build order' = .ok contents') :
    (contents.postings.entries = contents'.postings.entries ∧
      contents.documentLengths.entries = contents'.documentLengths.entries ∧
      contents.fuzzyDictionary = contents'.fuzzyDictionary ∧
      contents.totalDocumentLength = contents'.totalDocumentLength) ∧
    (∀ d t, docs d = some t → ∃ document, analyze t = .ok document ∧
      (∀ term, (contents.posting term).positions d = (document.positions term).val) ∧
      (contents.documentLengths.get compare d).getD 0 = document.tokenCount) ∧
    (∀ d, docs d = none → (∀ term, (contents.posting term).positions d = []) ∧
      contents.documentLengths.get compare d = none) ∧
    (∀ term, term ∈ contents.postings.entries.map Prod.fst ↔
      term ∈ contents.fuzzyDictionary.terms.map Prod.snd) ∧
    ∀ order, order.Perm b.dirty → b.build order = b.assemble order := by
  obtain ⟨htracks, hanalyzed⟩ := h.tracks
  have hshows := htracks.build horder hbuild
  have hshows' := h'.tracks.1.build horder' hbuild'
  obtain ⟨map, hholds, hne, hmap⟩ := hshows.postings
  obtain ⟨map', hholds', hne', hmap'⟩ := hshows'.postings
  obtain ⟨vocabulary, hfuzzy, hvocabulary⟩ := hshows.fuzzyDictionary
  obtain ⟨vocabulary', hfuzzy', hvocabulary'⟩ := hshows'.fuzzyDictionary
  obtain rfl := postings_unique hne hne' hmap hmap'
  obtain rfl : vocabulary = vocabulary' := by
    ext term
    rw [hvocabulary, hvocabulary']
  refine ⟨⟨entries_eq hholds hholds', entries_eq hshows.lengths hshows'.lengths,
    hfuzzy.unique hfuzzy', hshows.total.unique hshows'.total⟩,
    fun d t hd => ?_, fun d hd => ⟨fun term => ?_, ?_⟩, fun term => ?_,
    fun order horder => htracks.build_eq_assemble horder⟩
  · obtain ⟨document, ht⟩ := hanalyzed d t hd
    refine ⟨document, ht, fun term => ?_, ?_⟩
    · rw [hshows.positions, analysisOf_some hd ht]
    · rw [hshows.lengths.get_eq, TextIndexBuilder.lengthOf, analysisOf_some hd ht]
      split
      · next hzero => exact hzero.symm
      · rfl
  · rw [hshows.positions, analysisOf_none hd]
    rfl
  · rw [hshows.lengths.get_eq, TextIndexBuilder.lengthOf, analysisOf_none hd]
    rfl
  · rw [hshows.mem_keys, ← hshows.mem_vocabulary hvocabulary, List.mem_map]
    constructor
    · exact fun hmem => ⟨(codePoints term, term), hfuzzy.mem_terms.mpr ⟨hmem, rfl⟩, rfl⟩
    · rintro ⟨⟨path, _⟩, hmem, rfl⟩
      exact (hfuzzy.mem_terms.mp hmem).1

end

section

/-- Documents are strings; every letter of a string is a term. -/
def letterSchema : Schema JString where
  StringField := Unit
  ObjectField := Empty
  TextField := Unit
  Value := Empty.elim
  valueEq f := f.elim
  compareTo f := f.elim
  lawful f := f.elim
  stringOf _ t := some t
  valueOf f := f.elim
  source _ := ()
  analyze _ text := (text.getD []).map fun letter => [letter]

def letterAnalyzers : ValueAnalyzers letterSchema where
  fields := {
    name := fun _ => "text"
    analyzeWithPositions := fun _ text =>
      .ok (some (text.map fun letter => some ⟨[letter], 1, List.cons_ne_nil _ _⟩)) }
  analyzeNull _ := .ok (some [])

def letters (text : JString) : Except Failure AnalyzedDocument :=
  analyzeDocument letterAnalyzers () text

/-- A text goes in, a build, and behind it the text changes and another one comes. -/
def changedTexts : Except Failure TextIndexBuilder := do
  let b ← TextIndexContents.empty.toBuilder.add letters 0 [97, 98, 97]
  let contents ← b.build b.dirty
  let b ← contents.toBuilder.update letters 0 [97, 98, 97] [98]
  b.add letters 1 [98, 97]

def rebuiltTexts : Except Failure TextIndexBuilder := do
  let b ← TextIndexContents.empty.toBuilder.add letters 0 [98]
  b.add letters 1 [98, 97]

def texts : ℕ → Option JString :=
  Function.update (Function.update (fun _ => none) 0 (some [98])) 1 (some [98, 97])

theorem rebuiltTexts_maintained : ∃ b contents, rebuiltTexts = .ok b ∧
    MaintainedText letters b texts ∧ b.build b.dirty = .ok contents :=
  ⟨_, _, rfl, .add (.add .empty rfl rfl) rfl rfl, rfl⟩

theorem changedTexts_maintained : ∃ b contents, changedTexts = .ok b ∧
    MaintainedText letters b texts ∧ b.build b.dirty = .ok contents := by
  have hdocs : Function.update (Function.update (Function.update
      (fun _ : ℕ => (none : Option JString)) 0 (some [97, 98, 97])) 0 (some [98])) 1
        (some [98, 97]) = texts := by
    rw [Function.update_idem]
    rfl
  rw [← hdocs]
  exact ⟨_, _, rfl, .add (.update (.build (.add .empty rfl rfl) (.refl _) rfl) rfl rfl) rfl rfl,
    rfl⟩

theorem text_eq_rebuild_letters : ∃ b b' contents contents', changedTexts = .ok b ∧
    rebuiltTexts = .ok b' ∧ b.build b.dirty = .ok contents ∧ b'.build b'.dirty = .ok contents' ∧
    ((contents.postings.entries = contents'.postings.entries ∧
      contents.documentLengths.entries = contents'.documentLengths.entries ∧
      contents.fuzzyDictionary = contents'.fuzzyDictionary ∧
      contents.totalDocumentLength = contents'.totalDocumentLength) ∧
    (∀ d t, texts d = some t → ∃ document, letters t = .ok document ∧
      (∀ term, (contents.posting term).positions d = (document.positions term).val) ∧
      (contents.documentLengths.get compare d).getD 0 = document.tokenCount) ∧
    (∀ d, texts d = none → (∀ term, (contents.posting term).positions d = []) ∧
      contents.documentLengths.get compare d = none) ∧
    (∀ term, term ∈ contents.postings.entries.map Prod.fst ↔
      term ∈ contents.fuzzyDictionary.terms.map Prod.snd) ∧
    ∀ order, order.Perm b.dirty → b.build order = b.assemble order) := by
  obtain ⟨b, contents, hb, h, hbuild⟩ := changedTexts_maintained
  obtain ⟨b', contents', hb', h', hbuild'⟩ := rebuiltTexts_maintained
  exact ⟨b, b', contents, contents', hb, hb', hbuild, hbuild',
    text_eq_rebuild h h' (.refl _) (.refl _) hbuild hbuild'⟩

end

/-! ### What an analysis says -/

theorem IntPositions.mem_add {builder result : IntPositions} {position p : ℕ}
    (h : builder.add position = .ok result) :
    p ∈ result.val ↔ p ∈ builder.val ∨ p = position := by
  unfold IntPositions.add at h
  split at h
  · next hnone =>
    cases h
    rw [List.getLast?_eq_none_iff.mp hnone]
    simp
  · next previous hlast =>
    split at h
    · cases h
    · split at h
      · next heq =>
        cases h
        refine (or_iff_left_of_imp ?_).symm
        rintro rfl
        rw [heq]
        exact List.mem_of_getLast? hlast
      · cases h
        simp

/-- The positions of a term are those of its occurrences. -/
theorem mem_collect {positionsByTerm result : JMap JString IntPositions}
    {occurrences : List PositionedTerm} (h : collect positionsByTerm occurrences = .ok result)
    (term : JString) (p : ℕ) :
    p ∈ ((result.lookup term).getD .empty).val ↔
      p ∈ ((positionsByTerm.lookup term).getD .empty).val ∨ ⟨term, p⟩ ∈ occurrences := by
  induction occurrences generalizing positionsByTerm with
  | nil =>
    cases h
    simp
  | cons occurrence rest ih =>
    obtain ⟨positions, hadd, hrest⟩ := bind_eq_ok.mp h
    rw [ih hrest, List.mem_cons]
    by_cases hterm : term = occurrence.term
    · subst hterm
      rw [AList.lookup_insert, Option.getD_some, IntPositions.mem_add hadd, or_assoc]
      refine or_congr Iff.rfl (or_congr ?_ Iff.rfl)
      cases occurrence
      simp
    · rw [AList.lookup_insert_ne hterm]
      refine or_congr Iff.rfl (or_iff_right ?_).symm
      rintro rfl
      exact hterm rfl

/-- The terms of the occurrences are those of the tokens. -/
theorem mem_positionedTerms {fields : TextFields S} {field : S.TextField} {index advanced : ℕ}
    {tokens : List (Option AnalyzedToken)} {occurrences : List PositionedTerm}
    (h : positionedTerms fields field index advanced tokens = .ok occurrences) (term : JString) :
    (∃ p, ⟨term, p⟩ ∈ occurrences) ↔ ∃ token, some token ∈ tokens ∧ token.term = term := by
  induction tokens generalizing index advanced occurrences with
  | nil =>
    cases h
    simp
  | cons token rest ih =>
    cases token with
    | none => cases h
    | some token =>
      rw [positionedTerms] at h
      split at h
      · cases h
      split at h
      · cases h
      obtain ⟨later, hlater, hresult⟩ := bind_eq_ok.mp h
      cases hresult
      have hrest := ih hlater
      constructor
      · rintro ⟨p, hp⟩
        rcases List.mem_cons.mp hp with heq | hp
        · cases heq
          exact ⟨token, List.mem_cons_self, rfl⟩
        · obtain ⟨token', hmem, hterm⟩ := hrest.mp ⟨p, hp⟩
          exact ⟨token', List.mem_cons_of_mem _ hmem, hterm⟩
      · rintro ⟨token', hmem, rfl⟩
        rcases List.mem_cons.mp hmem with heq | hmem
        · cases heq
          exact ⟨_, List.mem_cons_self⟩
        · obtain ⟨p, hp⟩ := hrest.mpr ⟨token', hmem, rfl⟩
          exact ⟨p, List.mem_cons_of_mem _ hp⟩

/-- What an analyzer promises: both of its methods give the same terms. -/
def ValueAnalyzers.Agree (analyzers : ValueAnalyzers S) : Prop :=
  ∀ field value tokens, analyzers.tokens field value = .ok (some tokens) →
    ∀ term, term ∈ S.analyze field value ↔ ∃ token, some token ∈ tokens ∧ token.term = term

/-- A term has positions in a document when it is a term of the document. -/
theorem mem_documentTerms {analyzers : ValueAnalyzers S} (h : analyzers.Agree) {field : S.TextField}
    {document : T} {analysis : AnalyzedDocument}
    (hanalysis : analyzeDocument analyzers field document = .ok analysis) (term : JString) :
    (analysis.positions term).val ≠ [] ↔ term ∈ S.documentTerms field document := by
  obtain ⟨tokens, htokens, hrest⟩ := bind_eq_ok.mp hanalysis
  cases tokens with
  | none => cases hrest
  | some tokens =>
    obtain ⟨occurrences, hoccurrences, hrest⟩ := bind_eq_ok.mp hrest
    obtain ⟨positionsByTerm, hcollect, hresult⟩ := bind_eq_ok.mp hrest
    cases hresult
    rw [Schema.documentTerms, h field _ tokens htokens, ← mem_positionedTerms hoccurrences, Ne,
      List.eq_nil_iff_forall_not_mem, not_forall_not]
    refine exists_congr fun p => ?_
    rw [AnalyzedDocument.positions, mem_collect hcollect]
    exact or_iff_right List.not_mem_nil

/-! ### Maintained snapshots -/

theorem get_mapValues {K V W : Type} (f : V → W) (compareTo : K → K → Ordering) (key : K)
    (root : AvlNode K V) :
    (mapValues f root).get compareTo key = (root.get compareTo key).map f := by
  induction root with
  | leaf => rfl
  | node nodeKey value left right weight aggregateWeight height size ihl ihr =>
    rw [mapValues, AvlNode.get, AvlNode.get, ihl, ihr]
    cases compareTo key nodeKey <;> rfl

/-- The definition of an index of the registry. -/
inductive RankedDefinition (S : Schema T) where
  | text (field : S.TextField)
  | value (definition : IndexDefinition S)

/-- An index of the registry that its builders have maintained. -/
inductive RankedIncremental (analyzers : ValueAnalyzers S) (docs : ℕ → Option T) :
    RankedDefinition S → RankedIndex S → Prop
  | text {field order contents} {b : TextIndexBuilder} :
      MaintainedText (analyzeDocument analyzers field) b docs → order.Perm b.dirty →
      b.build order = .ok contents →
      RankedIncremental analyzers docs (.text field) (.text field contents.toSnapshot)
  | value {definition index statistics notText} : Incremental docs definition index statistics →
      RankedIncremental analyzers docs (.value definition) (.other index notText)

section

variable {analyzers : ValueAnalyzers S} {docs : ℕ → Option T} {definition : RankedDefinition S}
  {index index' : RankedIndex S}

/-- The documents under a term of a maintained text index. -/
theorem mem_posting (hagree : analyzers.Agree) {field : S.TextField}
    {order : List (JString × PostingList)} {contents : TextIndexContents} {b : TextIndexBuilder}
    (h : MaintainedText (analyzeDocument analyzers field) b docs) (horder : order.Perm b.dirty)
    (hbuild : b.build order = .ok contents) (term : JString) (d : ℕ) :
    d ∈ (contents.posting term).documents ↔
      ∃ t, docs d = some t ∧ term ∈ S.documentTerms field t := by
  obtain ⟨htracks, hanalyzed⟩ := h.tracks
  rw [(contents.posting term).mem_documents, (htracks.build horder hbuild).positions]
  cases hd : docs d with
  | none =>
    rw [analysisOf_none hd]
    refine iff_of_false (fun hne => hne rfl) ?_
    rintro ⟨t, ht, -⟩
    cases ht
  | some t =>
    obtain ⟨document, ht⟩ := hanalyzed d t hd
    rw [analysisOf_some hd ht, mem_documentTerms hagree ht]
    constructor
    · exact fun hterm => ⟨t, rfl, hterm⟩
    · rintro ⟨t', ht', hterm⟩
      cases ht'
      exact hterm

/-- A maintained index shows the documents. -/
theorem RankedIncremental.inSync (hagree : analyzers.Agree)
    (h : RankedIncremental analyzers docs definition index) :
    index.toIndexSnapshot.InSync docs := by
  cases h with
  | value h => exact (h.rebuilt h).1
  | @text field order contents b h horder hbuild =>
    intro term d
    rw [← mem_posting hagree h horder hbuild, get_mapValues, TextIndexContents.posting]
    show d ∈ orEmpty ((contents.postings.get JString.compareTo term).map PostingList.documents) ↔ _
    cases contents.postings.get JString.compareTo term <;> rfl

/-- The trie of a maintained text index spells the terms of its postings. -/
theorem MaintainedText.spelled {analyze : T → Except Failure AnalyzedDocument}
    {order : List (JString × PostingList)} {contents : TextIndexContents} {b : TextIndexBuilder}
    (h : MaintainedText analyze b docs) (horder : order.Perm b.dirty)
    (hbuild : b.build order = .ok contents) : contents.toSnapshot.Spelled := by
  have hshows := h.tracks.1.build horder hbuild
  obtain ⟨vocabulary, hfuzzy, hvocabulary⟩ := hshows.fuzzyDictionary
  have hmem : ∀ e ∈ contents.fuzzyDictionary.terms, e.2 ∈ vocabulary ∧ e.1 = codePoints e.2 :=
    fun e he => hfuzzy.mem_terms.mp he
  refine ⟨fun e he => (hmem e he).2, fun e he hnil => ?_, fun e he => ?_, ?_⟩
  · exact hfuzzy.stores.nonempty (hnil ▸ (hmem e he).1)
  · exact (hshows.mem_vocabulary hvocabulary e.2).mp (hmem e he).1
  · refine hfuzzy.stores.nodup.map_on ?_
    intro e he e' he' hterm
    refine Prod.ext ?_ hterm
    rw [(hmem e he).2, (hmem e' he').2, hterm]

/-- Maintained text indexes over the same documents hold the same posting lists. -/
theorem MaintainedText.postings_agree {analyze : T → Except Failure AnalyzedDocument}
    {order order' : List (JString × PostingList)} {contents contents' : TextIndexContents}
    {b b' : TextIndexBuilder} (h : MaintainedText analyze b docs) (horder : order.Perm b.dirty)
    (hbuild : b.build order = .ok contents) (h' : MaintainedText analyze b' docs)
    (horder' : order'.Perm b'.dirty) (hbuild' : b'.build order' = .ok contents') :
    (∀ term, contents.postings.get JString.compareTo term =
      contents'.postings.get JString.compareTo term) ∧
      contents.documentLengths.size = contents'.documentLengths.size := by
  have hshows := h.tracks.1.build horder hbuild
  have hshows' := h'.tracks.1.build horder' hbuild'
  obtain ⟨map, hholds, hne, hmap⟩ := hshows.postings
  obtain ⟨map', hholds', hne', hmap'⟩ := hshows'.postings
  obtain rfl := postings_unique hne hne' hmap hmap'
  refine ⟨fun term => (hholds.get_eq term).trans (hholds'.get_eq term).symm, ?_⟩
  rw [hshows.lengths.sound.size_eq, hshows'.lengths.sound.size_eq,
    entries_eq hshows.lengths hshows'.lengths]

/-- Maintained indexes of one definition answer alike. -/
theorem RankedIncremental.alike (h : RankedIncremental analyzers docs definition index)
    (h' : RankedIncremental analyzers docs definition index') :
    Alike index.toIndexSnapshot index'.toIndexSnapshot := by
  cases h with
  | value h =>
    cases h' with
    | value h' => exact (h.rebuilt h').2.2
  | text h horder hbuild =>
    cases h' with
    | text h' horder' hbuild' =>
      obtain ⟨hpostings, hsize⟩ := h.postings_agree horder hbuild h' horder' hbuild'
      unfold RankedIndex.toIndexSnapshot TextIndexSnapshot.indexedDocumentCount
      simp only [TextIndexContents.toSnapshot, hsize]
      refine alike_text fun term => ?_
      rw [get_mapValues, get_mapValues, hpostings]

end

theorem exists_of_forall₂ {α β : Type} {R : α → β → Prop} {l : List α} {l' : List β} {b : β}
    (h : List.Forall₂ R l l') (hb : b ∈ l') : ∃ a, R a b := by
  induction h with
  | nil => cases hb
  | cons hhead _ ih =>
    rcases List.mem_cons.mp hb with rfl | hb
    · exact ⟨_, hhead⟩
    · exact ih hb

/-- Related to the same elements, element by element. -/
theorem forall₂_of_common {α β : Type} {R : α → β → Prop} {Q : β → β → Prop}
    (hcommon : ∀ a b b', R a b → R a b' → Q b b') {l : List α} {left right : List β}
    (h : List.Forall₂ R l left) (h' : List.Forall₂ R l right) : List.Forall₂ Q left right := by
  induction h generalizing right with
  | nil =>
    cases h'
    exact .nil
  | cons hhead _ ih =>
    cases h' with
    | cons hhead' htail' => exact .cons (hcommon _ _ _ hhead hhead') (ih htail')

/-- A snapshot of maintained indexes is in sync. -/
theorem synced_of_incremental {analyzers : ValueAnalyzers S} (hagree : analyzers.Agree)
    {snapshot : SearchSnapshot T (RankedIndex S)} {definitions : List (RankedDefinition S)}
    (hdocuments : ∀ d ∈ snapshot.activeDocuments, (snapshot.documents d).isSome = true)
    (h : List.Forall₂ (RankedIncremental analyzers snapshot.get) definitions snapshot.indexes) :
    Synced snapshot := by
  refine ⟨⟨hdocuments, fun index hindex => ?_⟩, fun field index hindex => ?_⟩
  · obtain ⟨source, hsource, rfl⟩ := List.mem_map.mp hindex
    obtain ⟨definition, hincremental⟩ := exists_of_forall₂ h hsource
    exact hincremental.inSync hagree
  · obtain ⟨definition, hincremental⟩ := exists_of_forall₂ h hindex
    cases hincremental with
    | text hmaintained horder hbuild => exact hmaintained.spelled horder hbuild

/-- A snapshot whose indexes have been maintained, whatever calls and builds lie behind each of them, is
in sync with its documents.  Every query is planned and answered as over a snapshot of the same
documents whose indexes were built from scratch: with the same plan, the same documents and the same
order of them. -/
theorem maintained_eq_rebuilt {analyzers : ValueAnalyzers S} (hagree : analyzers.Agree)
    {snapshot rebuilt : SearchSnapshot T (RankedIndex S)} {definitions : List (RankedDefinition S)}
    (hdocuments : ∀ d ∈ snapshot.activeDocuments, (snapshot.documents d).isSome = true)
    (hget : snapshot.get = rebuilt.get)
    (hactive : snapshot.activeDocuments = rebuilt.activeDocuments)
    (h : List.Forall₂ (RankedIncremental analyzers snapshot.get) definitions snapshot.indexes)
    (h' : List.Forall₂ (RankedIncremental analyzers rebuilt.get) definitions rebuilt.indexes) :
    Synced snapshot ∧ ∀ mode query,
      plan mode (structured snapshot) query = plan mode (structured rebuilt) query ∧
        search mode (structured snapshot) query = search mode (structured rebuilt) query := by
  have hindexes : List.Forall₂ Alike (structured snapshot).indexes (structured rebuilt).indexes := by
    unfold structured
    rw [List.forall₂_map_left_iff, List.forall₂_map_right_iff]
    rw [← hget] at h'
    exact forall₂_of_common (fun _ _ _ => RankedIncremental.alike) h h'
  exact ⟨synced_of_incremental hagree hdocuments h, fun mode query =>
    ⟨plan_eq_plan hactive hindexes mode query, search_eq_search hget hactive hindexes mode query⟩⟩

section

/-- The texts under a text index. -/
def textSnapshot (contents : TextIndexContents) (version : ℕ) :
    SearchSnapshot JString (RankedIndex letterSchema) :=
  ⟨texts, {0, 1}, [.text () contents.toSnapshot], version⟩

theorem texts_isSome : ∀ d ∈ ({0, 1} : Finset ℕ), (texts d).isSome = true := by decide

theorem textSnapshot_get (contents : TextIndexContents) (version : ℕ) :
    (textSnapshot contents version).get = texts := by
  funext d
  by_cases h0 : d = 0
  · subst h0
    rfl
  · by_cases h1 : d = 1
    · subst h1
      rfl
    · simp [SearchSnapshot.get, textSnapshot, texts, h0, h1]

theorem letterAnalyzers_agree : letterAnalyzers.Agree := by
  intro field value tokens h term
  cases value with
  | none =>
    cases h
    simp [letterSchema]
  | some text =>
    cases h
    simp only [letterSchema, Option.getD_some, List.mem_map]
    constructor
    · rintro ⟨letter, hletter, rfl⟩
      exact ⟨_, ⟨letter, hletter, rfl⟩, rfl⟩
    · rintro ⟨token, ⟨letter, hletter, htoken⟩, rfl⟩
      cases htoken
      exact ⟨letter, hletter, rfl⟩

theorem maintained_eq_rebuilt_texts : ∃ b b' contents contents', changedTexts = .ok b ∧
    rebuiltTexts = .ok b' ∧ b.build b.dirty = .ok contents ∧ b'.build b'.dirty = .ok contents' ∧
    Synced (textSnapshot contents 3) ∧ ∀ mode query,
      plan mode (structured (textSnapshot contents 3)) query =
          plan mode (structured (textSnapshot contents' 1)) query ∧
        search mode (structured (textSnapshot contents 3)) query =
          search mode (structured (textSnapshot contents' 1)) query := by
  obtain ⟨b, contents, hb, h, hbuild⟩ := changedTexts_maintained
  obtain ⟨b', contents', hb', h', hbuild'⟩ := rebuiltTexts_maintained
  have hget := textSnapshot_get contents 3
  have hget' := textSnapshot_get contents' 1
  have hdefined : List.Forall₂ (RankedIncremental letterAnalyzers texts) [.text ()]
      (textSnapshot contents 3).indexes := .cons (.text h (.refl _) hbuild) .nil
  have hdefined' : List.Forall₂ (RankedIncremental letterAnalyzers texts) [.text ()]
      (textSnapshot contents' 1).indexes := .cons (.text h' (.refl _) hbuild') .nil
  exact ⟨b, b', contents, contents', hb, hb', hbuild, hbuild',
    maintained_eq_rebuilt letterAnalyzers_agree texts_isSome (hget.trans hget'.symm) rfl
      (hget.symm ▸ hdefined) (hget'.symm ▸ hdefined')⟩

end

end GeneralSearch.Ranked
