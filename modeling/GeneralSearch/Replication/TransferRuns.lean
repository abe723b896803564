import GeneralSearch.Replication.Store
import GeneralSearch.Replication.Transfer

/-! What stops leave of a transfer: a record that may be found counts no byte that the staged image
does not keep, so what has been acknowledged stays, and what is read in the end is what was
announced. -/

namespace GeneralSearch.Replication

open Lib

namespace Stage

/-- No stop takes `whole` from the beginning of the staged image. -/
def Backs (d : Stage) (whole : Bytes) : Prop :=
  whole = [] ∨ ∃ f, d.files .image = some f ∧ f.Keeps whole

namespace Backs

variable {d : Stage} {whole : Bytes}

/-- Only the image counts. -/
theorem congr {d' : Stage} (h : d.Backs whole) (hd : d'.files .image = d.files .image) :
    d'.Backs whole := by
  rw [Backs, hd]
  exact h

theorem mono {less : Bytes} (h : d.Backs whole) (hless : less <+: whole) : d.Backs less := by
  obtain rfl | ⟨f, hf, hkeeps⟩ := h
  · exact .inl (List.prefix_nil.mp hless)
  · exact .inr ⟨f, hf, hkeeps.mono hless⟩

theorem openFile (h : d.Backs whole) (name : Name) : (d.openFile name).Backs whole := by
  obtain h | ⟨f, hf, hkeeps⟩ := h
  · exact .inl h
  · refine .inr ⟨f, ?_, hkeeps⟩
    cases name with
    | pending => exact hf
    | image =>
      show some ((d.files .image).getD .created) = some f
      rw [hf]
      rfl

/-- A change of the image that keeps its beginning. -/
theorem change {g : File UInt8 → File UInt8} (h : d.Backs whole)
    (hg : ∀ f : File UInt8, f.Keeps whole → (g f).Keeps whole) : (d.change .image g).Backs whole := by
  obtain h | ⟨f, hf, hkeeps⟩ := h
  · exact .inl h
  · refine .inr ⟨g f, ?_, hg f hkeeps⟩
    show (d.files .image).map g = some (g f)
    rw [hf]
    rfl

theorem sync (h : d.Backs whole) : d.sync.Backs whole := by
  obtain h | ⟨f, hf, hkeeps⟩ := h
  · exact .inl h
  · refine .inr ⟨f.link, ?_, hkeeps.link⟩
    show (d.files .image).map File.link = some f.link
    rw [hf]
    rfl

theorem survives {d' : Stage} (h : d.Backs whole) (hd : d.Survives d') : d'.Backs whole := by
  obtain h | ⟨f, hf, hkeeps⟩ := h
  · exact .inl h
  · have hfile := hd.files .image
    rw [hf] at hfile
    obtain ⟨f', hf', hkeeps'⟩ := hkeeps.survives hfile
    exact .inr ⟨f', hf', hkeeps'⟩

end Backs

end Stage

/-- What a record that may be missing counts as received. -/
def receivedBy (x : Option Transfer) : ℕ := (x.map Transfer.receivedBytes).getD 0

/-- Each of the records that may be found is as `A` says and counts no byte beyond `whole`, which
the image keeps. -/
structure Covers (A : Option Transfer → Prop) (whole : Bytes) (d : Stage) : Prop where
  backs : d.Backs whole
  record : A d.record ∧ receivedBy d.record ≤ whole.length
  durable : A d.durable ∧ receivedBy d.durable ≤ whole.length

/-- The record is on the disk, and no stop takes `whole` from the image. -/
structure Secured (x : Option Transfer) (whole : Bytes) (d : Stage) : Prop where
  record : d.record = x
  durable : d.durable = x
  backs : d.Backs whole

section

variable {A : Option Transfer → Prop} {x : Option Transfer} {whole : Bytes} {d d' : Stage}

theorem Secured.covers (h : Secured x whole d) (hx : A x ∧ receivedBy x ≤ whole.length) :
    Covers A whole d where
  backs := h.backs
  record := by rw [h.record]; exact hx
  durable := by rw [h.durable]; exact hx

/-- A stage whose record is on the disk, with what the record counts of the image. -/
theorem Covers.settled (h : Covers A whole d) (hd : d.record = d.durable) :
    Secured d.record (whole.take (receivedBy d.record)) d where
  record := rfl
  durable := hd.symm
  backs := h.backs.mono (List.take_prefix _ _)

theorem Covers.survives (h : Covers A whole d) (hd : d.Survives d') : Covers A whole d' := by
  have hrecord : A d'.record ∧ receivedBy d'.record ≤ whole.length := by
    obtain heq | heq := hd.record
    · rw [heq]
      exact h.record
    · rw [heq]
      exact h.durable
  exact ⟨h.backs.survives hd, hrecord, by rw [hd.durable]; exact hrecord⟩

theorem Secured.sync (h : Secured x whole d) : Secured x whole d.sync :=
  ⟨h.record, h.record, h.backs.sync⟩

end

/-- What the readers of the staged image see. -/
def Stage.Shows (d : Stage) (content : Bytes) : Prop :=
  ∃ f, d.files .image = some f ∧ f.content = content

theorem Stage.Shows.append {d : Stage} {content : Bytes} (h : d.Shows content) (b : UInt8) :
    (d.change .image (·.append b)).Shows (content ++ [b]) := by
  obtain ⟨f, hf, hcontent⟩ := h
  refine ⟨f.append b, ?_, congrArg (· ++ [b]) hcontent⟩
  show (d.files .image).map (·.append b) = some (f.append b)
  rw [hf]
  rfl

/-- Forcing the image and the directory makes what the image shows safe. -/
theorem Stage.Shows.backs {d : Stage} {content : Bytes} (h : d.Shows content) :
    (d.change .image File.force).sync.Backs content := by
  obtain ⟨f, hf, rfl⟩ := h
  refine .inr ⟨f.force.link, ?_, rfl, le_refl _, List.prefix_rfl⟩
  show ((d.files .image).map File.force).map File.link = some f.force.link
  rw [hf]
  rfl

namespace RecoveryFiles

/-! ### Changes -/

section

variable {s : RecoveryFiles} {α : Type}

/-- One change: it is made, or the call fails and nothing is. -/
theorem wp_io {change : Stage → Stage} {Q : Unit → RecoveryFiles → Prop}
    {E : Failure → RecoveryFiles → Prop} (hQ : ∀ s', s'.stage = change s.stage → Q () s')
    (hE : ∀ e, E e s) : Wp (io change) s Q E := by
  unfold io
  rw [wp_bind, wp_get]
  split
  · exact hE _
  · exact hQ _ rfl
  · exact hQ _ rfl

@[simp] theorem wp_check {f : Stage → Except Failure α} {Q : α → RecoveryFiles → Prop}
    {E : Failure → RecoveryFiles → Prop} : Wp (check f) s Q E ↔
      (∀ a, f s.stage = .ok a → Q a s) ∧ ∀ e, f s.stage = .error e → E e s := by
  unfold Wp check
  cases f s.stage <;> simp

theorem preserves_io {P : Stage → Prop} {change : Stage → Stage} (h : ∀ d, P d → P (change d)) :
    Preserves (fun s => P s.stage) (io change) :=
  fun s hs => wp_io (fun s' hs' => by show P s'.stage; rw [hs']; exact h s.stage hs) fun _ => hs

theorem preserves_check {I : RecoveryFiles → Prop} {f : Stage → Except Failure α} :
    Preserves I (check f) := fun _ hs => wp_check.mpr ⟨fun _ _ => hs, fun _ _ => hs⟩

theorem preserves_capacity {I : RecoveryFiles → Prop} {c : Prop} [Decidable c] {message : String} :
    Preserves I (capacity c message : Exec Unit) :=
  fun _ hs => wp_capacity.mpr ⟨fun _ => hs, fun _ => hs⟩

variable {D : Type} {m : Manifest D} {v : Recovery m}

/-- Writing a file keeps what its changes and a `sync` keep. -/
theorem preserves_write {P : Stage → Prop} {name : Name} {value : Bytes}
    (hopen : ∀ d, P d → P (d.openFile name)) (hchange : ∀ f d, P d → P (d.change name f))
    (hsync : ∀ d, P d → P d.sync) : Preserves (fun s => P s.stage) (write v name value) := by
  unfold write reserve append
  refine .bind preserves_check fun _ => .bind .get fun _ => .bind preserves_capacity fun _ => ?_
  refine .bind preserves_capacity fun _ => .bind preserves_capacity fun _ => ?_
  refine .bind (preserves_io hopen) fun _ => .bind (preserves_io (hchange _)) fun _ => ?_
  refine .bind (.forM fun _ => preserves_io (hchange _)) fun _ => ?_
  exact .bind (preserves_io (hchange _)) fun _ => preserves_io hsync

end

/-! ### Operations -/

section

variable {D : Type} {m : Manifest D} {v : Recovery m} {A : Option Transfer → Prop}
  {s : RecoveryFiles} {x : Option Transfer} {whole : Bytes} {t : Transfer}

/-- The pending record is no part of the image. -/
theorem preserves_write_pending {value : Bytes} :
    Preserves (fun s => Secured x whole s.stage) (write v .pending value) := by
  refine preserves_write (P := Secured x whole) ?_ ?_ ?_
  · exact fun d hd => ⟨hd.record, hd.durable, hd.backs.openFile _⟩
  · exact fun f d hd => ⟨hd.record, hd.durable, hd.backs.congr rfl⟩
  · exact fun d hd => hd.sync

/-- A record is published that counts no more than what the image keeps. -/
theorem publish_spec (h : Secured x whole s.stage) (hx : A x ∧ receivedBy x ≤ whole.length)
    (ht : A (some t) ∧ t.receivedBytes ≤ whole.length) :
    Wp (publish v t) s (fun _ s' => Secured (some t) whole s'.stage)
      fun _ s' => Covers A whole s'.stage := by
  unfold publish
  refine Wp.bind ((preserves_write_pending s h).mono (fun _ _ hs => hs)
    fun _ _ hs => hs.covers hx) fun _ s₁ h₁ => ?_
  refine wp_bind.mpr (wp_io (fun s₂ h₂ => ?_) fun _ => h₁.covers hx)
  have hrecord : s₂.stage.record = some t := by rw [h₂]; rfl
  have hdurable : s₂.stage.durable = x := by rw [h₂]; exact h₁.durable
  have hbacks : s₂.stage.Backs whole := by rw [h₂]; exact h₁.backs.congr rfl
  refine wp_io (fun s₃ h₃ => ?_) fun _ =>
    ⟨hbacks, by rw [hrecord]; exact ht, by rw [hdurable]; exact hx⟩
  rw [h₃]
  exact ⟨hrecord, hrecord, hbacks.sync⟩

/-- The loop that writes behind the image. -/
theorem append_spec {bytes content : Bytes} (h : Secured x whole s.stage)
    (hcontent : s.stage.Shows content) :
    Wp (append .image bytes) s
      (fun _ s' => Secured x whole s'.stage ∧ s'.stage.Shows (content ++ bytes))
      fun _ s' => Secured x whole s'.stage := by
  induction bytes generalizing s content with
  | nil =>
    rw [List.append_nil]
    exact ⟨h, hcontent⟩
  | cons b bytes ih =>
    show Wp (io _ >>= fun _ => append .image bytes) s _ _
    refine wp_bind.mpr (wp_io (fun s₁ h₁ => ?_) fun _ => h)
    rw [← @List.singleton_append _ b bytes, ← List.append_assoc]
    apply ih
    · rw [h₁]
      exact ⟨h.record, h.durable, h.backs.change fun f hf => hf.append b⟩
    · rw [h₁]
      exact hcontent.append b

/-- The encoding of another progress changes nothing else. -/
theorem received_eq_ok {n : ℕ} {t' : Transfer} (h : t.received n = .ok t') :
    t'.reset = t.reset ∧ t'.receivedBytes = n := by
  unfold Transfer.received at h
  split at h
  · cases h
    exact ⟨rfl, rfl⟩
  · cases h

theorem size_of_shows {d : Stage} {content : Bytes} (h : d.Shows content) :
    size .image d = content.length := by
  obtain ⟨f, hf, rfl⟩ := h
  unfold size
  rw [hf]
  rfl

/-- Truncating the image to what the record counts leaves what no stop takes away. -/
theorem truncate_shows {d : Stage} {content : Bytes} (h : Secured x whole d)
    (hcontent : d.Shows content) (hle : whole.length ≤ content.length) :
    Secured x whole (d.change .image (·.truncate whole.length)) ∧
      (d.change .image (·.truncate whole.length)).Shows whole := by
  refine ⟨⟨h.record, h.durable, h.backs.change fun f hf => hf.truncate (le_refl _)⟩, ?_⟩
  obtain ⟨f, hf, rfl⟩ := hcontent
  refine ⟨f.truncate whole.length, ?_, ?_⟩
  · show (d.files .image).map (·.truncate whole.length) = some _
    rw [hf]
    rfl
  · show f.content.take whole.length = whole
    obtain rfl | ⟨f', hf', hkeeps⟩ := h.backs
    · rfl
    · rw [hf, Option.some.injEq] at hf'
      subst hf'
      exact (List.prefix_iff_eq_take.mp hkeeps.begins).symm

theorem extend_spec {bytes : Bytes} (h : Secured (some t) whole s.stage)
    (hwhole : whole.length = t.receivedBytes) (hA : A (some t))
    (hgrows : ∀ t' : Transfer, t'.reset = t.reset → t.receivedBytes ≤ t'.receivedBytes →
      A (some t')) :
    Wp (extend v t bytes) s
      (fun n s' => ∃ t' : Transfer, t'.reset = t.reset ∧ t'.receivedBytes = n ∧
        n = t.receivedBytes + bytes.length ∧ Secured (some t') (whole ++ bytes) s'.stage)
      fun _ s' => ∃ more, whole <+: more ∧ Covers A more s'.stage := by
  -- until the new record is published, the old one stands
  have hold : ∀ d, Secured (some t) whole d → ∃ more, whole <+: more ∧ Covers A more d :=
    fun d hd => ⟨whole, List.prefix_rfl, hd.covers ⟨hA, hwhole.ge⟩⟩
  unfold extend
  refine wp_bind.mpr (wp_io (fun s₁ hs₁ => ?_) fun _ => hold _ h)
  have h₁ : Secured (some t) whole s₁.stage := by
    rw [hs₁]
    exact ⟨h.record, h.durable, h.backs.openFile _⟩
  obtain ⟨content, hcontent⟩ : ∃ c, s₁.stage.Shows c := ⟨_, _, by rw [hs₁]; rfl, rfl⟩
  rw [wp_bind, wp_get, size_of_shows hcontent, ← hwhole]
  refine wp_bind.mpr (wp_need.mpr ⟨fun hle => ?_, fun _ => hold _ h₁⟩)
  refine wp_bind.mpr (wp_io (fun s₂ hs₂ => ?_) fun _ => hold _ h₁)
  obtain ⟨h₂, hshows⟩ := truncate_shows h₁ hcontent hle
  rw [← hs₂] at h₂ hshows
  refine Wp.bind ((append_spec h₂ hshows).mono (fun _ _ hs => hs) fun _ _ hs => hold _ hs)
    fun _ s₃ h₃ => ?_
  refine wp_bind.mpr (wp_io (fun s₄ hs₄ => ?_) fun _ => hold _ h₃.1)
  have h₄ : Secured (some t) whole s₄.stage := by
    rw [hs₄]
    exact ⟨h₃.1.record, h₃.1.durable, h₃.1.backs.change fun f hf => hf.force⟩
  have hbacks : s₄.stage.sync.Backs (whole ++ bytes) := by
    rw [hs₄]
    exact h₃.2.backs
  refine wp_bind.mpr (wp_io (fun s₅ hs₅ => ?_) fun _ => hold _ h₄)
  have h₅ : Secured (some t) (whole ++ bytes) s₅.stage := by
    rw [hs₅]
    exact ⟨h₄.record, h₄.record, hbacks⟩
  have hlength : (whole ++ bytes).length = whole.length + bytes.length := List.length_append
  have hnew : A (some t) ∧ receivedBy (some t) ≤ (whole ++ bytes).length := by
    refine ⟨hA, ?_⟩
    show t.receivedBytes ≤ _
    omega
  refine wp_bind.mpr (wp_check.mpr ⟨fun t' ht' => ?_, fun _ _ =>
    ⟨_, List.prefix_append _ _, h₅.covers hnew⟩⟩)
  obtain ⟨hreset, hreceived⟩ := received_eq_ok ht'
  refine Wp.bind ((publish_spec h₅ hnew ⟨hgrows t' hreset (by omega), by omega⟩).mono
    (fun _ _ hs => hs) fun _ _ hs => ⟨_, List.prefix_append _ _, hs⟩) fun _ s₆ h₆ => ?_
  exact ⟨t', hreset, hreceived, rfl, h₆⟩

theorem imageFile_eq_ok {d : Stage} {raw : Bytes} (h : imageFile d = .ok raw) : d.Shows raw := by
  unfold imageFile at h
  split at h
  · cases h
  · rename_i f hf
    obtain ⟨_, _, hraw⟩ := bind_eq_ok.mp h
    cases hraw
    exact ⟨f, hf, rfl⟩

/-- What is kept of the image stands at the beginning of what is read of it. -/
theorem begins_of_shows {d : Stage} {raw : Bytes} (h : Secured x whole d) (hraw : d.Shows raw) :
    whole = raw.take whole.length := by
  obtain ⟨f, hf, rfl⟩ := hraw
  obtain rfl | ⟨f', hf', hkeeps⟩ := h.backs
  · rfl
  · rw [hf, Option.some.injEq] at hf'
    subst hf'
    exact List.prefix_iff_eq_take.mp hkeeps.begins

/-- A chunk that has been received changes nothing but that the image is forced again. -/
theorem retry_spec {offset : ℕ} {bytes : Bytes} (h : Secured (some t) whole s.stage)
    (hwhole : whole.length = t.receivedBytes) :
    Wp (retry t offset bytes) s
      (fun n s' => n = t.receivedBytes ∧ Secured (some t) whole s'.stage ∧
        bytes.length ≤ t.receivedBytes - offset ∧ (whole.drop offset).take bytes.length = bytes)
      fun _ s' => s'.stage = s.stage := by
  unfold retry
  rw [wp_bind, wp_get, wp_bind, wp_need]
  refine ⟨fun hrange => ?_, fun _ => rfl⟩
  refine wp_bind.mpr (wp_check.mpr ⟨fun raw hraw => ?_, fun _ _ => rfl⟩)
  refine wp_bind.mpr (wp_need.mpr ⟨fun hsame => ?_, fun _ => rfl⟩)
  refine wp_bind.mpr (wp_io (fun s₁ hs₁ => ?_) fun _ => rfl)
  refine ⟨rfl, ?_, hrange.1, ?_⟩
  · rw [hs₁]
    exact ⟨h.record, h.durable, h.backs.change fun f hf => hf.force⟩
  · rw [begins_of_shows h (imageFile_eq_ok hraw), List.drop_take, List.take_take, Nat.min_eq_left (by omega)]
    exact hsame.2.symm

/-- A chunk that is acknowledged stands where it belongs, before all that is counted. -/
structure Placed (t : Transfer) (whole : Bytes) (id : ℕ) (offset : ℤ) (bytes : Bytes) (n : ℕ)
    (d : Stage) : Prop where
  named : t.transferId = id
  nonempty : 0 < bytes.length
  settled : ∃ t' : Transfer, t'.reset = t.reset ∧ t'.receivedBytes = n ∧ t.receivedBytes ≤ n ∧
    ∃ more, more.length = n ∧ whole <+: more ∧ Secured (some t') more d ∧
      ∃ k : ℕ, (k : ℤ) = offset ∧ k + bytes.length ≤ n ∧ (more.drop k).take bytes.length = bytes

theorem chunk_spec {id : ℕ} {offset : ℤ} {bytes : Bytes} {ballot : Ballot}
    (h : Secured x whole s.stage) (hwhole : whole.length = receivedBy x) (hA : A x)
    (hgrows : ∀ t t' : Transfer, A (some t) → t'.reset = t.reset →
      t.receivedBytes ≤ t'.receivedBytes → A (some t')) :
    Wp (chunk v id offset bytes ballot) s
      (fun n s' => ∃ t, x = some t ∧ Placed t whole id offset bytes n s'.stage)
      fun _ s' => ∃ more, whole <+: more ∧ Covers A more s'.stage := by
  have hold : ∃ more, whole <+: more ∧ Covers A more s.stage :=
    ⟨whole, List.prefix_rfl, h.covers ⟨hA, hwhole.ge⟩⟩
  unfold chunk reserve
  refine wp_bind.mpr (wp_check.mpr ⟨fun t ht => ?_, fun _ _ => hold⟩)
  obtain rfl : x = some t := by
    unfold record at ht
    rw [h.record] at ht
    cases x with
    | none => cases ht
    | some t' =>
      cases ht
      rfl
  refine wp_bind.mpr (wp_need.mpr ⟨fun hid => ?_, fun _ => hold⟩)
  refine wp_bind.mpr (wp_capacity.mpr ⟨fun hsize => ?_, fun _ => hold⟩)
  refine wp_bind.mpr (wp_need.mpr ⟨fun hoffset => ?_, fun _ => hold⟩)
  refine wp_bind.mpr (wp_check.mpr ⟨fun _ _ => ?_, fun _ _ => hold⟩)
  refine wp_bind.mpr (wp_get.mpr ?_)
  refine wp_bind.mpr (wp_capacity.mpr ⟨fun _ => ?_, fun _ => hold⟩)
  refine wp_bind.mpr (wp_capacity.mpr ⟨fun _ => ?_, fun _ => hold⟩)
  refine wp_ite.mpr ⟨fun hearlier => ?_, fun hnext => ?_⟩
  · refine (retry_spec h hwhole).mono ?_ fun _ s' hs' => hs' ▸ hold
    rintro n s' ⟨rfl, hs', hrange, hsame⟩
    exact ⟨t, rfl, hid.1, hsize.1, t, rfl, rfl, le_refl _, whole, hwhole, List.prefix_rfl, hs',
      offset.toNat, by omega, by omega, hsame⟩
  · refine (extend_spec h hwhole hA fun t' => hgrows t t' hA).mono ?_ fun _ _ hs' => hs'
    rintro n s' ⟨t', hreset, hreceived, hn, hs'⟩
    have hcount : whole.length = t.receivedBytes := hwhole
    refine ⟨t, rfl, hid.1, hsize.1, t', hreset, hreceived, by omega, whole ++ bytes, ?_,
      List.prefix_append _ _, hs', t.receivedBytes, by omega, by omega, ?_⟩
    · rw [List.length_append]
      omega
    · rw [← hcount, List.drop_left, List.take_length]

/-- A transfer takes the place of another one before anything of it is received. -/
theorem start_spec (h : Secured x whole s.stage) (hx : A x ∧ receivedBy x ≤ whole.length)
    (ht : A (some t)) (hzero : t.receivedBytes = 0) :
    Wp (start v t) s (fun _ s' => Secured (some t) [] s'.stage)
      fun _ s' => ∃ more, Covers A more s'.stage := by
  unfold start
  refine Wp.bind ((publish_spec h hx ⟨ht, by omega⟩).mono (fun _ _ hs => hs)
    fun _ _ hs => ⟨_, hs⟩) fun _ s₁ h₁ => ?_
  have hwrite : Preserves (fun s => Secured (some t) [] s.stage) (write v .image []) := by
    refine preserves_write (P := Secured (some t) []) ?_ ?_ fun d hd => hd.sync
    · exact fun d hd => ⟨hd.record, hd.durable, .inl rfl⟩
    · exact fun f d hd => ⟨hd.record, hd.durable, .inl rfl⟩
  refine (hwrite s₁ ⟨h₁.record, h₁.durable, .inl rfl⟩).mono (fun _ _ hs => hs) fun _ s₂ h₂ => ?_
  exact ⟨[], h₂.covers ⟨ht, hzero.le⟩⟩

end

/-- A property of records that a transfer keeps while it goes on, and that counts `kept`. -/
structure Lasting (A : Option Transfer → Prop) (kept : Bytes) : Prop where
  grows : ∀ t t' : Transfer, A (some t) → t'.reset = t.reset →
    t.receivedBytes ≤ t'.receivedBytes → A (some t')
  counts : ∀ x, A x → kept.length ≤ receivedBy x

/-- The records that may be found are as `A` says, the image begins with `kept`, and a voter that
goes on has its record on the disk. -/
structure Sound (A : Option Transfer → Prop) (kept : Bytes) (s : RecoveryFiles) : Prop where
  covered : ∃ whole, kept <+: whole ∧ Covers A whole s.stage
  live : s.failed = false → s.stage.record = s.stage.durable

section

variable {D : Type} {m : Manifest D} {v : Recovery m} {A : Option Transfer → Prop} {kept : Bytes}
  {s s' : RecoveryFiles}

theorem Sound.settled (h : Sound A kept s) (hA : Lasting A kept) (hlive : s.failed = false) :
    ∃ whole, Secured s.stage.record whole s.stage ∧ whole.length = receivedBy s.stage.record ∧
      A s.stage.record ∧ kept <+: whole := by
  obtain ⟨whole, hkept, hcovers⟩ := h.covered
  refine ⟨_, hcovers.settled (h.live hlive), List.length_take_of_le hcovers.record.2,
    hcovers.record.1, List.prefix_take_iff.mpr ⟨hkept, hA.counts _ hcovers.record.1⟩⟩

/-- A new transfer may only take the place of another. -/
theorem begin_spec {t : Transfer} (h : Sound A kept s) (hA : Lasting A kept)
    (hlive : s.failed = false)
    (hnew : t.receivedBytes = 0 → (∀ r, s.stage.record = some r → r.transferId ≠ t.transferId) →
      A (some t)) :
    Wp (beginTransfer v t) s
      (fun _ s' => s'.stage.record = s'.stage.durable ∧
        ∃ whole, kept <+: whole ∧ Covers A whole s'.stage)
      fun _ s' => ∃ whole, kept <+: whole ∧ Covers A whole s'.stage := by
  obtain ⟨whole, hsettled, hcount, hrecord, hkept⟩ := h.settled hA hlive
  have hstart : t.receivedBytes = 0 →
      (∀ r, s.stage.record = some r → r.transferId ≠ t.transferId) →
      Wp (start v t) s
        (fun _ s' => s'.stage.record = s'.stage.durable ∧
          ∃ whole, kept <+: whole ∧ Covers A whole s'.stage)
        fun _ s' => ∃ whole, kept <+: whole ∧ Covers A whole s'.stage := by
    intro hzero hother
    have ht := hnew hzero hother
    have hnil : kept = [] := List.length_eq_zero_iff.mp (Nat.le_zero.mp (hzero ▸ hA.counts _ ht))
    rw [hnil]
    refine (start_spec hsettled ⟨hrecord, hcount.ge⟩ ht hzero).mono (fun _ s₁ h₁ => ?_)
      fun _ s₁ ⟨more, hmore⟩ => ⟨more, List.nil_prefix, hmore⟩
    exact ⟨h₁.record.trans h₁.durable.symm, [], List.nil_prefix, h₁.covers ⟨ht, hzero.le⟩⟩
  unfold beginTransfer
  refine wp_bind.mpr (wp_need.mpr ⟨fun hinit => ?_, fun _ => h.covered⟩)
  rw [wp_bind, wp_get]
  split
  · rename_i hnone
    exact hstart hinit.2 fun r hr => by rw [hnone] at hr; cases hr
  · rename_i old hold
    refine wp_ite.mpr ⟨fun _ => ?_, fun hid => hstart hinit.2 fun r hr => ?_⟩
    · exact wp_need.mpr ⟨fun _ => ⟨h.live hlive, h.covered⟩, fun _ => h.covered⟩
    · rw [hold, Option.some.injEq] at hr
      exact hr ▸ hid

/-- An exception quarantines the voter. -/
theorem recoveryIo_spec {α : Type} {operation : Exec α} {P : α → Stage → Prop} {C : Stage → Prop}
    (h : s.failed = false →
      Wp operation s (fun a s' => P a s'.stage) fun _ s' => C s'.stage)
    (hPC : ∀ a d, P a d → C d) :
    Wp (recoveryIo v operation) s (fun a s' => s.failed = false ∧ P a s'.stage)
      fun _ s' => s'.failed = true ∧ (s'.stage = s.stage ∨ C s'.stage) := by
  unfold recoveryIo
  rw [wp_bind, wp_get]
  by_cases hfailed : s.failed = true
  · rw [if_pos hfailed]
    exact ⟨hfailed, .inl rfl⟩
  · rw [if_neg hfailed]
    have hlive : s.failed = false := by simpa using hfailed
    refine wp_bind.mpr (wp_pure.mpr (wp_tryCatch.mpr ?_))
    refine Wp.bind ((h hlive).mono (fun _ _ hs => hs) fun _ _ hs => ⟨rfl, .inr hs⟩) fun a s₁ h₁ => ?_
    refine wp_bind.mpr (wp_check.mpr ⟨fun _ _ => ⟨hlive, h₁⟩, fun _ _ => ?_⟩)
    exact ⟨rfl, .inr (hPC _ _ h₁)⟩

/-- A call that keeps what is covered, with its faults and the check around it. -/
theorem Sound.call {α : Type} {operation : Exec α} {P : α → Stage → Prop} {faults : Option ℕ}
    {result : Except Failure α} (h : Sound A kept s)
    (hop : s.failed = false → Wp operation { s with faults }
      (fun a s' => P a s'.stage)
      fun _ s' => ∃ whole, kept <+: whole ∧ Covers A whole s'.stage)
    (hP : ∀ a d, P a d → d.record = d.durable ∧ ∃ whole, kept <+: whole ∧ Covers A whole d)
    (hresult : outcome (recoveryIo v operation { s with faults }) = (result, s')) :
    Sound A kept s' ∧ ∀ a, result = .ok a → s.failed = false ∧ P a s'.stage := by
  have hspec := recoveryIo_spec (v := v) (s := { s with faults }) hop fun a d h => (hP a d h).2
  cases hrun : recoveryIo v operation { s with faults } with
  | ok a s₁ =>
    rw [hrun] at hresult
    obtain ⟨rfl, rfl⟩ := Prod.mk.inj hresult
    obtain ⟨hlive, ha⟩ := hspec.ok hrun
    refine ⟨⟨(hP a _ ha).2, fun _ => (hP a _ ha).1⟩, fun a' ha' => ?_⟩
    cases ha'
    exact ⟨hlive, ha⟩
  | error e s₁ =>
    rw [hrun] at hresult
    obtain ⟨rfl, rfl⟩ := Prod.mk.inj hresult
    obtain ⟨hfailed, hstage⟩ := hspec.error hrun
    refine ⟨⟨?_, fun hlive => ?_⟩, nofun⟩
    · obtain heq | hcovered := hstage
      · rw [heq]
        exact h.covered
      · exact hcovered
    · rw [hfailed] at hlive
      cases hlive

/-- What an acknowledged chunk leaves covers what was kept before. -/
theorem Placed.covers {t : Transfer} {whole bytes : Bytes} {id n : ℕ} {offset : ℤ} {d : Stage}
    (h : Placed t whole id offset bytes n d) (hA : Lasting A kept) (ht : A (some t))
    (hkept : kept <+: whole) :
    d.record = d.durable ∧ ∃ whole, kept <+: whole ∧ Covers A whole d := by
  obtain ⟨t', hreset, hn, hle, more, hmore, hprefix, hd, _⟩ := h.settled
  refine ⟨hd.record.trans hd.durable.symm, more, hkept.trans hprefix, hd.covers ⟨?_, ?_⟩⟩
  · exact hA.grows t t' ht hreset (by omega)
  · show t'.receivedBytes ≤ _
    omega

/-- `chunk` from a sound state. -/
theorem Sound.chunk {id : ℕ} {offset : ℤ} {bytes : Bytes} {ballot : Ballot} {faults : Option ℕ}
    (h : Sound A kept s) (hA : Lasting A kept) (hlive : s.failed = false) :
    Wp (chunk v id offset bytes ballot) { s with faults }
      (fun n s' => ∃ t whole, A (some t) ∧ kept <+: whole ∧
        Placed t whole id offset bytes n s'.stage)
      fun _ s' => ∃ whole, kept <+: whole ∧ Covers A whole s'.stage := by
  obtain ⟨whole, hsettled, hcount, hrecord, hkept⟩ := h.settled hA hlive
  refine (chunk_spec (s := { s with faults }) hsettled hcount hrecord hA.grows).mono ?_ ?_
  · rintro n s₁ ⟨t, ht, hplaced⟩
    exact ⟨t, whole, ht ▸ hrecord, hkept, hplaced⟩
  · rintro e s₁ ⟨more, hmore, hcovers⟩
    exact ⟨more, hkept.trans hmore, hcovers⟩

/-- Reading changes nothing; what is returned is what the record announces. -/
theorem complete_spec {id : ℕ} {ballot : Ballot} :
    Wp (completeTransfer v id ballot) s
      (fun r s' => s'.stage = s.stage ∧ ∃ t, s.stage.record = some t ∧ t.transferId = id ∧
        t.ballot = ballot ∧ r.1.length = t.imageBytes ∧ digest r.1 = .ok t.imageDigest ∧
        readImage v r.1 = .ok r)
      fun _ s' => s'.stage = s.stage := by
  unfold completeTransfer
  refine wp_bind.mpr (wp_check.mpr ⟨fun t ht => ?_, fun _ _ => rfl⟩)
  refine wp_bind.mpr (wp_need.mpr ⟨fun hid => ?_, fun _ => rfl⟩)
  refine wp_bind.mpr (wp_check.mpr ⟨fun raw _ => ?_, fun _ _ => rfl⟩)
  refine wp_bind.mpr (wp_need.mpr ⟨fun hlength => ?_, fun _ => rfl⟩)
  refine wp_bind.mpr (wp_check.mpr ⟨fun found hfound => ?_, fun _ _ => rfl⟩)
  refine wp_bind.mpr (wp_need.mpr ⟨fun hdigest => ?_, fun _ => rfl⟩)
  refine wp_check.mpr ⟨fun r hr => ?_, fun _ _ => rfl⟩
  have hrecord : s.stage.record = some t := by
    unfold record at ht
    split at ht
    · cases ht
    · rename_i t' heq
      cases ht
      exact heq
  have hraw : r.1 = raw := by
    obtain ⟨body, _, hbody⟩ := bind_eq_ok.mp hr
    obtain ⟨image, _, himage⟩ := bind_eq_ok.mp hbody
    cases himage
    rfl
  rw [hraw]
  exact ⟨rfl, t, hrecord, hid.1, hid.2, hlength.2, hdigest ▸ hfound, hr⟩

/-- What is read in the end, in the stage that is left. -/
structure Completed (v : Recovery m) (id : ℕ) (ballot : Ballot) (r : Bytes × Image m) (d : Stage) :
    Prop where
  settled : d.record = d.durable
  read : readImage v r.1 = .ok r
  announced : ∃ t, d.record = some t ∧ t.transferId = id ∧ t.ballot = ballot ∧
    r.1.length = t.imageBytes ∧ digest r.1 = .ok t.imageDigest

theorem Sound.complete {id : ℕ} {ballot : Ballot} {faults : Option ℕ} (h : Sound A kept s)
    (hlive : s.failed = false) :
    Wp (completeTransfer v id ballot) { s with faults }
      (fun r s' => Completed v id ballot r s'.stage ∧
        ∃ whole, kept <+: whole ∧ Covers A whole s'.stage)
      fun _ s' => ∃ whole, kept <+: whole ∧ Covers A whole s'.stage := by
  refine (complete_spec (s := { s with faults })).mono ?_ fun _ s₁ hs₁ => by rw [hs₁]; exact h.covered
  rintro r s₁ ⟨hs₁, t, hrecord, hid, hballot, hlength, hdigest, hread⟩
  rw [hs₁]
  exact ⟨⟨h.live hlive, hread, t, hrecord, hid, hballot, hlength, hdigest⟩, h.covered⟩

/-- One step keeps a sound state sound, unless it begins another transfer. -/
theorem Step.sound {event : Event m} (h : Step v s event s') (hs : Sound A kept s)
    (hA : Lasting A kept)
    (hnew : ∀ t result, event = .began t result → t.receivedBytes = 0 →
      (∀ r, s.stage.record = some r → r.transferId ≠ t.transferId) → A (some t)) :
    Sound A kept s' := by
  cases h with
  | began faults hresult =>
    exact (hs.call (fun hlive => begin_spec (s := { s with faults }) ⟨hs.covered, hs.live⟩ hA hlive
      (hnew _ _ rfl)) (P := fun _ d => d.record = d.durable ∧
        ∃ whole, kept <+: whole ∧ Covers A whole d) (fun _ _ h => h) hresult).1
  | delivered faults hresult =>
    refine (hs.call (fun hlive => hs.chunk hA hlive) (P := fun n d => ∃ t whole, A (some t) ∧
      kept <+: whole ∧ Placed t whole _ _ _ n d) ?_ hresult).1
    rintro n d ⟨t, whole, ht, hkept, hplaced⟩
    exact hplaced.covers hA ht hkept
  | completed faults hresult =>
    exact (hs.call (fun hlive => hs.complete hlive) (P := fun r d => Completed v _ _ r d ∧
      ∃ whole, kept <+: whole ∧ Covers A whole d) (fun _ _ h => ⟨h.1.settled, h.2⟩) hresult).1
  | opened hsurvives hlive =>
    obtain ⟨whole, hkept, hcovers⟩ := hs.covered
    exact ⟨⟨whole, hkept, hcovers.survives hsurvives⟩, fun _ => hsurvives.durable.symm⟩

theorem Run.sound {events : List (Event m)} (run : Run v s events s') (hs : Sound A kept s)
    (hA : Lasting A kept)
    (hnew : ∀ t result, .began t result ∈ events → t.receivedBytes = 0 →
      ∀ x, A x → (∀ r, x = some r → r.transferId ≠ t.transferId) → A (some t)) :
    Sound A kept s' := by
  induction run with
  | nil => exact hs
  | step run h ih =>
    have hprior := ih fun t result ht => hnew t result (List.mem_append_left _ ht)
    refine h.sound hprior hA fun t result hevent hzero => ?_
    obtain ⟨_, _, hcovers⟩ := hprior.covered
    exact hnew t result (List.mem_append_right _ (hevent ▸ List.mem_singleton_self _)) hzero _
      hcovers.record.1

end

/-! ### Images -/

/-- The bytes that the digest of a frame is of. -/
def signed (bytes : Bytes) : Bytes := bytes.take 16 ++ bytes.drop headerBytes

/-- `image` is an encoded IMAGE of the length and the digest that `t` announces, and nothing else
has the SHA-256 of what its digest is of. -/
structure Announces (hash : Bytes → Bytes) (t : Transfer) (image : Bytes) : Prop where
  length : image.length = t.imageBytes
  digest : digest image = .ok t.imageDigest
  encoded : ∃ body, imageBody hash image = .ok body
  collisionless : ∀ other, hash other = hash (signed image) → other = signed image

/-- The header of an IMAGE is determined by its length. -/
theorem imageBody_eq_ok {hash : Bytes → Bytes} {bytes body : Bytes}
    (h : imageBody hash bytes = .ok body) :
    bytes.take 16 = family ++ (imageKind ++ bigEndian 4 (bytes.length - headerBytes)) ∧
      (bytes.drop 16).take 32 = hash (signed bytes) ∧ bytes.drop headerBytes = body := by
  unfold imageBody at h
  obtain ⟨_, _, h⟩ := bind_eq_ok.mp h
  by_cases hfamily : bytes.take 8 = family
  · rw [if_pos hfamily] at h
    simp only [bind_eq_ok, need_eq_ok] at h
    obtain ⟨_, hkind, _, hlength, _, hhash, hbody⟩ := h
    refine ⟨?_, hhash, Except.ok.inj hbody⟩
    rw [← hfamily, ← hkind, ← hlength, show (16 : ℕ) = 8 + (4 + 4) from rfl, List.take_add,
      List.take_add, List.drop_drop]
  · rw [if_neg hfamily] at h
    cases h

theorem digest_eq_ok {bytes found : Bytes} (h : Replication.digest bytes = .ok found) :
    (bytes.drop 16).take 32 = found := by
  obtain ⟨_, _, hfound⟩ := bind_eq_ok.mp h
  exact Except.ok.inj hfound

/-- The three parts of a frame. -/
theorem frame_parts (bytes : Bytes) :
    bytes.take 16 ++ ((bytes.drop 16).take 32 ++ bytes.drop headerBytes) = bytes := by
  rw [show headerBytes = 16 + 32 from rfl, ← List.drop_drop, List.take_append_drop,
    List.take_append_drop]

/-- Two encoded images of one length and one digest are the same bytes. -/
theorem Announces.unique {hash : Bytes → Bytes} {t : Transfer} {image bytes body : Bytes}
    (h : Announces hash t image) (hlength : bytes.length = t.imageBytes)
    (hdigest : Replication.digest bytes = .ok t.imageDigest)
    (hbody : imageBody hash bytes = .ok body) : bytes = image := by
  obtain ⟨body', hbody'⟩ := h.encoded
  obtain ⟨hhead, hhash, _⟩ := imageBody_eq_ok hbody
  obtain ⟨hhead', hhash', _⟩ := imageBody_eq_ok hbody'
  have hheads : bytes.take 16 = image.take 16 := by
    rw [hhead, hhead', hlength, h.length]
  have hdigests : (bytes.drop 16).take 32 = (image.drop 16).take 32 :=
    (digest_eq_ok hdigest).trans (digest_eq_ok h.digest).symm
  have hsigned : signed bytes = signed image :=
    h.collisionless _ (by rw [← hhash, ← hhash', hdigests])
  have hbodies : bytes.drop headerBytes = image.drop headerBytes := by
    unfold signed at hsigned
    rw [hheads] at hsigned
    exact List.append_cancel_left hsigned
  rw [← frame_parts bytes, hheads, hdigests, hbodies, frame_parts]

/-! ### The transfer -/

/-- The chunk differs from what has been received in one of its places. -/
def Conflicts (d : Stage) (offset : ℤ) (bytes : Bytes) : Prop :=
  ∃ t f, d.record = some t ∧ d.files .image = some f ∧ ∃ i k : ℕ, i < bytes.length ∧
    0 ≤ offset ∧ (k : ℤ) = offset + i ∧ k < t.receivedBytes ∧ f.content[k]? ≠ bytes[i]?

/-- The record of the transfer counts `kept`, with which the image begins. -/
def Counts (d : Stage) (id : ℕ) (kept : Bytes) : Prop :=
  ∃ t f, d.record = some t ∧ t.transferId = id ∧ kept.length ≤ t.receivedBytes ∧
    d.files .image = some f ∧ kept <+: f.content

section

variable {D : Type} {m : Manifest D} {v : Recovery m} {s s' : RecoveryFiles}

theorem retry_conflict {t : Transfer} {offset : ℕ} {bytes : Bytes}
    (hconflict : ∀ f, s.stage.files .image = some f →
      bytes ≠ (f.content.drop offset).take bytes.length) :
    Wp (retry t offset bytes) s (fun _ _ => False) fun _ s' => s'.stage = s.stage := by
  unfold retry
  rw [wp_bind, wp_get, wp_bind, wp_need]
  refine ⟨fun _ => ?_, fun _ => rfl⟩
  refine wp_bind.mpr (wp_check.mpr ⟨fun raw hraw => ?_, fun _ _ => rfl⟩)
  obtain ⟨f, hf, rfl⟩ := imageFile_eq_ok hraw
  exact wp_bind.mpr (wp_need.mpr ⟨fun hsame => (hconflict f hf hsame.2).elim, fun _ => rfl⟩)

/-- A conflicting chunk is refused before anything is changed. -/
theorem chunk_conflict {id : ℕ} {offset : ℤ} {bytes : Bytes} {ballot : Ballot}
    (hconflict : Conflicts s.stage offset bytes) :
    Wp (chunk v id offset bytes ballot) s (fun _ _ => False) fun _ s' => s'.stage = s.stage := by
  obtain ⟨t, f, hrecord, hf, i, k, hi, hoffset, hk, hcounted, hdiffers⟩ := hconflict
  unfold chunk reserve
  refine wp_bind.mpr (wp_check.mpr ⟨fun t' ht' => ?_, fun _ _ => rfl⟩)
  obtain rfl : t = t' := by
    unfold record at ht'
    rw [hrecord] at ht'
    exact Except.ok.inj ht'
  refine wp_bind.mpr (wp_need.mpr ⟨fun _ => ?_, fun _ => rfl⟩)
  refine wp_bind.mpr (wp_capacity.mpr ⟨fun _ => ?_, fun _ => rfl⟩)
  refine wp_bind.mpr (wp_need.mpr ⟨fun _ => ?_, fun _ => rfl⟩)
  refine wp_bind.mpr (wp_check.mpr ⟨fun _ _ => ?_, fun _ _ => rfl⟩)
  refine wp_bind.mpr (wp_get.mpr ?_)
  refine wp_bind.mpr (wp_capacity.mpr ⟨fun _ => ?_, fun _ => rfl⟩)
  refine wp_bind.mpr (wp_capacity.mpr ⟨fun _ => ?_, fun _ => rfl⟩)
  refine wp_ite.mpr ⟨fun _ => retry_conflict fun f' hf' hsame => ?_, fun hnext => by omega⟩
  rw [hf, Option.some.injEq] at hf'
  subst hf'
  apply hdiffers
  rw [hsame, List.getElem?_take_of_lt hi, List.getElem?_drop]
  congr 1
  omega

theorem Step.conflict {id : ℕ} {offset : ℤ} {bytes : Bytes} {ballot : Ballot}
    {result : Except Failure ℕ} (h : Step v s (.delivered id offset bytes ballot result) s')
    (hconflict : Conflicts s.stage offset bytes) :
    (∃ e, result = .error e) ∧ s'.stage = s.stage := by
  cases h with
  | delivered faults hresult =>
    have hop : s.failed = false → Wp (RecoveryFiles.chunk v id offset bytes ballot) { s with faults }
        (fun _ _ => False) fun _ s' => s'.stage = s.stage := fun _ => chunk_conflict hconflict
    have hspec := recoveryIo_spec (v := v) (s := { s with faults }) (P := fun (_ : ℕ) _ => False)
      (C := fun d => d = s.stage) hop fun _ _ h => h.elim
    cases hrun : recoveryIo v (RecoveryFiles.chunk v id offset bytes ballot) { s with faults } with
    | ok a s₁ => exact (hspec.ok hrun).2.elim
    | error e s₁ =>
      rw [hrun] at hresult
      obtain ⟨rfl, rfl⟩ := Prod.mk.inj hresult
      exact ⟨⟨e, rfl⟩, (hspec.error hrun).2.elim (fun h => h) fun h => h⟩

/-- The records of a run are those that it announced. -/
def Announced (events : List (Event m)) (x : Option Transfer) : Prop :=
  ∀ r, x = some r → ∃ result, .began r.reset result ∈ events

/-- A record of the transfer `t` that counts `n` bytes. -/
def Continues (t : Transfer) (n : ℕ) (x : Option Transfer) : Prop :=
  ∃ r, x = some r ∧ r.reset = t.reset ∧ n ≤ r.receivedBytes

theorem transferId_of_reset {t t' : Transfer} (h : t'.reset = t.reset) :
    t'.transferId = t.transferId := by
  have hid := congrArg Transfer.transferId h
  exact hid

theorem lasting_announced (events : List (Event m)) : Lasting (Announced events) [] where
  grows := by
    rintro t t' ht hreset - r hr
    cases hr
    rw [hreset]
    exact ht t rfl
  counts _ _ := Nat.zero_le _

theorem lasting_continues {t : Transfer} {kept : Bytes} :
    Lasting (Continues t kept.length) kept where
  grows := by
    rintro r r' ⟨_, hr, hreset, hle⟩ hreset' hgrows
    cases hr
    exact ⟨r', rfl, hreset'.trans hreset, hle.trans hgrows⟩
  counts := by
    rintro x ⟨r, rfl, _, hle⟩
    exact hle

/-- A run from an empty directory knows its records. -/
theorem Run.announced {events : List (Event m)} {faults : Option ℕ}
    (run : Run v ⟨.empty, faults, false⟩ events s) : Sound (Announced events) [] s := by
  have hnone : ∀ r, (none : Option Transfer) = some r → ∃ result, .began r.reset result ∈ events :=
    nofun
  refine run.sound ⟨⟨[], List.prefix_rfl, .inl rfl, ⟨hnone, le_refl _⟩, ⟨hnone, le_refl _⟩⟩,
    fun _ => rfl⟩ (lasting_announced events) ?_
  intro t result ht hzero x _ _ r hr
  cases hr
  have hreset : t.reset = t := by
    cases t
    subst hzero
    rfl
  exact ⟨result, hreset.symm ▸ ht⟩

/-- What is acknowledged of a transfer stays until another one is begun. -/
theorem Run.counts {t : Transfer} {kept : Bytes} {events : List (Event m)}
    (run : Run v s events s') (hs : Sound (Continues t kept.length) kept s) (hkept : kept ≠ [])
    (hsame : ∀ t' result, .began t' result ∈ events → t'.transferId = t.transferId) :
    Counts s'.stage t.transferId kept := by
  have hsound := run.sound hs lasting_continues fun t' result ht' _ x hx hother => by
    obtain ⟨r, hr, hreset, _⟩ := hx
    refine absurd ?_ (hother r hr)
    rw [hsame t' result ht']
    exact transferId_of_reset hreset
  obtain ⟨whole, hwhole, hcovers⟩ := hsound.covered
  obtain ⟨⟨r, hr, hreset, hle⟩, _⟩ := hcovers.record
  obtain rfl | ⟨f, hf, hkeeps⟩ := hcovers.backs
  · exact absurd (List.prefix_nil.mp hwhole) hkept
  · exact ⟨r, f, hr, transferId_of_reset hreset, hle, hf, hwhole.trans hkeeps.begins⟩

/-- Over every run of announcements, chunks, reads, failures between two changes of the directory,
stops and openings: what a chunk is acknowledged with has the chunk in its place, and stays at the
beginning of the image until another transfer is begun; a chunk that conflicts with what has been
received is refused and changes nothing; and an image that is read in the end is, byte for byte,
the one that was announced. -/
theorem transfer_exact {events : List (Event m)} {faults : Option ℕ}
    (run : Run v ⟨.empty, faults, false⟩ events s) :
    (∀ id offset bytes ballot n s₁, Step v s (.delivered id offset bytes ballot (.ok n)) s₁ →
      ∃ (kept : Bytes) (k : ℕ), kept.length = n ∧ (k : ℤ) = offset ∧ k + bytes.length ≤ n ∧
        (kept.drop k).take bytes.length = bytes ∧
        ∀ more s₂, Run v s₁ more s₂ → (∀ t result, .began t result ∈ more → t.transferId = id) →
          Counts s₂.stage id kept) ∧
    (∀ id offset bytes ballot result s₁, Conflicts s.stage offset bytes →
      Step v s (.delivered id offset bytes ballot result) s₁ →
        (∃ e, result = .error e) ∧ s₁.stage = s.stage) ∧
    ∀ id ballot bytes image s₁, Step v s (.completed id ballot (.ok (bytes, image))) s₁ →
      ∃ t result, .began t result ∈ events ∧ t.transferId = id ∧ t.ballot = ballot ∧
        bytes.length = t.imageBytes ∧ digest bytes = .ok t.imageDigest ∧
        readImage v bytes = .ok (bytes, image) ∧ ∀ announced, Announces v.hash t announced →
          bytes = announced := by
  have hsound := run.announced
  refine ⟨?_, fun _ _ _ _ _ _ hconflict hstep => hstep.conflict hconflict, ?_⟩
  · intro id offset bytes ballot n s₁ hstep
    cases hstep with
    | delivered faults hresult =>
      have hcall := (hsound.call (fun hlive => hsound.chunk (lasting_announced events) hlive)
        (P := fun n d => ∃ t whole, Announced events (some t) ∧ [] <+: whole ∧
          Placed t whole id offset bytes n d)
        (fun n d ⟨_, _, ht, hkept, hplaced⟩ => hplaced.covers (lasting_announced events) ht hkept)
        hresult).2 n rfl
      obtain ⟨_, t, whole, _, _, hplaced⟩ := hcall
      obtain ⟨t', hreset, hn, _, kept, hlength, _, hsettled, k, hk, hrange, hbytes⟩ :=
        hplaced.settled
      refine ⟨kept, k, hlength, hk, hrange, hbytes, fun more s₂ hrun hsame => ?_⟩
      have hid : t'.transferId = id := (transferId_of_reset hreset).trans hplaced.named
      have hnonempty := hplaced.nonempty
      have hkept : kept ≠ [] := by
        intro hnil
        rw [hnil, List.length_nil] at hlength
        omega
      subst hid
      refine hrun.counts ⟨⟨kept, List.prefix_rfl, hsettled.covers ⟨⟨t', rfl, rfl, ?_⟩, ?_⟩⟩,
        fun _ => hsettled.record.trans hsettled.durable.symm⟩ hkept hsame
      · exact (hlength.trans hn.symm).le
      · exact (hn.trans hlength.symm).le
  · intro id ballot bytes image s₁ hstep
    cases hstep with
    | completed faults hresult =>
      obtain ⟨_, hcompleted, whole, _, hcovers⟩ := (hsound.call (fun hlive => hsound.complete hlive)
        (P := fun r d => Completed v id ballot r d ∧
          ∃ whole, [] <+: whole ∧ Covers (Announced events) whole d)
        (fun _ _ h => ⟨h.1.settled, h.2⟩) hresult).2 _ rfl
      obtain ⟨t, hrecord, hid, hballot, hlength, hdigest⟩ := hcompleted.announced
      obtain ⟨result, hbegan⟩ := hcovers.record.1 t hrecord
      refine ⟨t.reset, result, hbegan, hid, hballot, hlength, hdigest, hcompleted.read, ?_⟩
      intro announced hannounced
      obtain ⟨body, hbody, _⟩ := bind_eq_ok.mp hcompleted.read
      exact hannounced.unique hlength hdigest hbody

end

/-- A manifest whose records are not compared by digest. -/
def plainManifest : Manifest Unit := ⟨(), 0, [], Fin.val, by decide, Node.val_injective⟩

/-- The bytes of an IMAGE with a body of one byte. -/
def smallImage : Bytes := family ++ (imageKind ++ bigEndian 4 1) ++ (List.replicate 32 1 ++ [7])

/-- A voter to which only the small image has the digest in its header. -/
def smallRecovery : Recovery plainManifest where
  node := 0
  snapshotChunkBytes := 64
  maxSnapshotStagingBytes := 4096
  maxRetainedLogBytes := 4096
  inventory _ := .ok 0
  encode _ := [0]
  hash bytes := List.replicate 32 (if bytes = signed smallImage then 1 else 0)
  content _ := .ok ⟨genesisSnapshot plainManifest, none, nofun⟩

def smallTransfer : Transfer where
  node := 0
  ballot := Ballot.genesis
  transferId := 1
  imageBytes := 49
  imageDigest := List.replicate 32 1
  receivedBytes := 0
  size := by decide
  progress := by decide

/-- The voter after it has begun the transfer and received twenty bytes of it, and has stopped with
some bytes behind them that it was never sent. -/
def stoppedStage : Stage where
  record := some { smallTransfer with receivedBytes := 20, progress := by decide }
  durable := some { smallTransfer with receivedBytes := 20, progress := by decide }
  files name := if name = .image then some ⟨smallImage.take 20 ++ [9, 9], 22, true⟩ else none

theorem smallImage_announced : Announces smallRecovery.hash smallTransfer smallImage where
  length := by decide
  digest := rfl
  encoded := ⟨[7], by decide⟩
  collisionless other h := by
    by_contra hne
    change List.replicate 32 (if other = signed smallImage then (1 : UInt8) else 0) =
      List.replicate 32 (if signed smallImage = signed smallImage then 1 else 0) at h
    rw [if_neg hne, if_pos rfl] at h
    exact absurd h (by decide)

/-- The voter after a call that nothing interrupts. -/
def after {α : Type} (operation : Exec α) (s : RecoveryFiles) : RecoveryFiles :=
  (outcome (recoveryIo smallRecovery operation s)).2

def smallBegun : RecoveryFiles :=
  after (beginTransfer smallRecovery smallTransfer) ⟨.empty, none, false⟩

def smallReceived : RecoveryFiles :=
  after (chunk smallRecovery 1 0 (smallImage.take 20) Ballot.genesis) smallBegun

def smallResumed : RecoveryFiles :=
  after (chunk smallRecovery 1 20 (smallImage.drop 20) Ballot.genesis) ⟨stoppedStage, none, false⟩

def smallEvents : List (Event plainManifest) :=
  [.began smallTransfer (.ok ()), .delivered 1 0 (smallImage.take 20) Ballot.genesis (.ok 20),
    .opened, .delivered 1 20 (smallImage.drop 20) Ballot.genesis (.ok 49)]

theorem small_run : Run smallRecovery ⟨.empty, none, false⟩ smallEvents smallResumed := by
  have hbegan : Step smallRecovery ⟨.empty, none, false⟩ (.began smallTransfer (.ok ())) smallBegun :=
    .began none rfl
  have hreceived : Step smallRecovery smallBegun
      (.delivered 1 0 (smallImage.take 20) Ballot.genesis (.ok 20)) smallReceived :=
    .delivered none rfl
  have hstopped : smallReceived.stage.Survives stoppedStage := by
    refine ⟨.inl rfl, rfl, fun name => ?_⟩
    cases name with
    | pending => exact .absent
    | image => exact .kept (by decide)
  have hopened : Step smallRecovery smallReceived .opened ⟨stoppedStage, none, false⟩ :=
    .opened hstopped rfl
  have hresumed : Step smallRecovery ⟨stoppedStage, none, false⟩
      (.delivered 1 20 (smallImage.drop 20) Ballot.genesis (.ok 49)) smallResumed :=
    .delivered none rfl
  exact .step (.step (.step (.step .nil hbegan) hreceived) hopened) hresumed

theorem transfer_exact_restarted : ∃ s₁ image,
    Step smallRecovery smallResumed (.completed 1 Ballot.genesis (.ok (smallImage, image))) s₁ ∧
      ∀ bytes image s₁, Step smallRecovery smallResumed
        (.completed 1 Ballot.genesis (.ok (bytes, image))) s₁ → bytes = smallImage := by
  refine ⟨smallResumed, _, .completed none rfl, fun bytes image s₁ hstep => ?_⟩
  obtain ⟨t, result, hbegan, _, _, _, _, _, hunique⟩ :=
    (transfer_exact small_run).2.2 1 Ballot.genesis bytes image s₁ hstep
  obtain rfl : t = smallTransfer := by
    simp [smallEvents] at hbegan
    exact hbegan.1
  exact hunique smallImage smallImage_announced

end RecoveryFiles

end GeneralSearch.Replication
