import EnhancedXv6.Memory.Shared

/-!
# Files, pipes and inode references

`filealloc`, `filedup` and `fileclose` of file.c, the allocation and closing of pipes, and the
reference counts of inodes.  The page of a pipe is freed by the last `pipeclose`; the file table and
the pipe are locked one after the other, so that the two ends of a pipe may be closed at the same
time.
-/

namespace EnhancedXv6.Memory

open Kernel Resource

/-! ## Code -/

def Shared.setFile (s : Shared) (f : Fin NFILE) (file : File) : Shared :=
  { s with ftable := Function.update s.ftable f file }

def findFile (s : Shared) : Option (Fin NFILE) :=
  (List.finRange NFILE).find? fun f ↦ (s.ftable f).ref = 0

def filealloc : Prog Shared (Option (Fin NFILE)) :=
  .step
    (fun _ s ↦ match findFile s with
      | none => s
      | some f => s.setFile f { s.ftable f with ref := 1 })
    fun _ s ↦ .pure (findFile s)

def filedup (f : Fin NFILE) : Prog Shared Unit :=
  .step
    (fun _ s ↦ if (s.ftable f).ref < 1 then s
      else s.setFile f { s.ftable f with ref := (s.ftable f).ref + 1 })
    fun _ s ↦ if (s.ftable f).ref < 1 then .panic else .pure ()

/-- `idup(ip)`, and what `iget` does to an inode that it returns. -/
def idup (ip : Fin NINODE) : Prog Shared Unit :=
  .step (fun _ s ↦ { s with iref := Function.update s.iref ip (s.iref ip + 1) }) fun _ _ ↦ .pure ()

/-- `iput(ip)`; what it does to an inode without links is on the disk. -/
def iput (ip : Fin NINODE) : Prog Shared Unit :=
  .step (fun _ s ↦ { s with iref := Function.update s.iref ip (s.iref ip - 1) }) fun _ _ ↦ .pure ()

def Pipe.close (q : Pipe) (writable : Bool) : Pipe :=
  if writable then { q with writeopen := false } else { q with readopen := false }

def Pipe.done (q : Pipe) : Bool := !q.readopen && !q.writeopen

def findPipe (s : Shared) (pi : Page) : Option Pipe := s.pipes.find? fun q ↦ q.page = pi

/-- `pipeclose(pi, writable)`: the section under `pi->lock`, and `kfree` for the last end.  It has no
meaning for a page that is no pipe. -/
def pipeclose (pi : Page) (writable : Bool) : Prog Shared Unit :=
  .step
    (fun _ s ↦ match findPipe s pi with
      | none => s
      | some q =>
        let q' := q.close writable
        { s with pipes := if q'.done then s.pipes.erase q else q' :: s.pipes.erase q })
    fun _ s ↦ match findPipe s pi with
      | none => .panic
      | some q => if (q.close writable).done then kfree pi else .pure ()

/-- `fileclose(f)`: the section under `ftable.lock`, and what is closed with the last reference. -/
def fileclose (f : Fin NFILE) : Prog Shared Unit :=
  .step
    (fun _ s ↦
      let file := s.ftable f
      if file.ref < 1 then s
      else if file.ref - 1 > 0 then s.setFile f { file with ref := file.ref - 1 }
      else s.setFile f { ref := 0, type := .none })
    fun _ s ↦
      let file := s.ftable f
      if file.ref < 1 then .panic
      else if file.ref - 1 > 0 then .pure ()
      else match file.type with
        | .none => .pure ()
        | .pipe pi writable => pipeclose pi writable
        | .inode ip => iput ip

/-- The end of `pipealloc`, where it initialises the pipe and its two files. -/
def initPipe (f0 f1 : Fin NFILE) (pi : Page) : Prog Shared Unit :=
  .step
    (fun _ s ↦
      let s := { s with pipes := ⟨pi, true, true⟩ :: s.pipes }
      let s := s.setFile f0 { s.ftable f0 with type := .pipe pi false }
      s.setFile f1 { s.ftable f1 with type := .pipe pi true })
    fun _ _ ↦ .pure ()

def pipealloc : Prog Shared (Option (Fin NFILE × Fin NFILE)) := do
  match ← filealloc with
  | none => pure none
  | some f0 =>
    match ← filealloc with
    | none =>
      fileclose f0
      pure none
    | some f1 =>
      match ← kalloc with
      | none =>
        fileclose f0
        fileclose f1
        pure none
      | some pi =>
        initPipe f0 f1 pi
        pure (some (f0, f1))

def initFile (f : Fin NFILE) (ip : Fin NINODE) : Prog Shared Unit :=
  .step (fun _ s ↦ s.setFile f { s.ftable f with type := .inode ip }) fun _ _ ↦ .pure ()

/-! ## Balance -/

variable {ram : Ram} {s : Shared} {h h' rest : Held} {f g : Fin NFILE} {pi : Page}
  {writable : Bool} {ip : Fin NINODE}

theorem sum_setFile (φ : Fin NFILE → File → ℕ) (ftable : Fin NFILE → File) (f : Fin NFILE)
    (file : File) :
    ∑ g, φ g (Function.update ftable f file g) + φ f (ftable f) =
      ∑ g, φ g (ftable g) + φ f file := by
  have hrest : ∑ g ∈ Finset.univ.erase f, φ g (Function.update ftable f file g) =
      ∑ g ∈ Finset.univ.erase f, φ g (ftable g) := by
    apply Finset.sum_congr rfl
    intro g hg
    rw [Function.update_of_ne (Finset.ne_of_mem_erase hg)]
  rw [← Finset.add_sum_erase _ _ (Finset.mem_univ f), hrest, Function.update_self,
    ← Finset.add_sum_erase _ (fun g ↦ φ g (ftable g)) (Finset.mem_univ f)]
  omega

def openEnds (pipes : List Pipe) : Token → ℕ
  | .pipeEnd pi writable => pipes.countP fun q ↦ q.page = pi ∧ q.isOpen writable
  | _ => 0

theorem openEnds_nil (t : Token) : openEnds [] t = 0 := by
  cases t <;> rfl

theorem openEnds_append (pipes pipes' : List Pipe) (t : Token) :
    openEnds (pipes ++ pipes') t = openEnds pipes t + openEnds pipes' t := by
  cases t with
  | pipeEnd pi writable => exact List.countP_append
  | _ => rfl

/-- The resources differ in references only. -/
structure SamePages (h h' : Held) : Prop where
  pages : pagesOf h' = pagesOf h
  data : ∀ pg bytes, .data pg bytes ∈ h' → .data pg bytes ∈ h

namespace Balanced

theorem contents_of_samePages {mem : Page → Bytes} (hsame : SamePages h h')
    (hdata : ∀ pg bytes, .data pg bytes ∈ h + rest → mem pg = bytes) :
    ∀ pg bytes, .data pg bytes ∈ h' + rest → mem pg = bytes := by
  intro pg bytes hmem
  apply hdata
  rw [Multiset.mem_add] at hmem ⊢
  exact hmem.imp_left (hsame.data pg bytes)

/-- One file changes, together with the tokens that a process holds. -/
theorem setFile {file : File} (hs : Balanced ram s (h + rest)) (hsame : SamePages h h')
    (hproper : file.Proper)
    (htokens : ∀ t, t.counted = true → h'.count t + file.holds t + (s.ftable f).issues f t =
      h.count t + (s.ftable f).holds t + file.issues f t) :
    Balanced ram (s.setFile f file) (h' + rest) := by
  refine ⟨hs.kernelEnd, ?_, contents_of_samePages hsame hs.contents, fun t ht ↦ ?_, fun g ↦ ?_⟩
  · rw [pagesOf_add, hsame.pages, ← pagesOf_add]
    exact hs.balance
  · have hbefore := hs.tokens t ht
    have hholds := sum_setFile (fun _ file ↦ file.holds t) s.ftable f file
    have hissues := sum_setFile (fun g file ↦ file.issues g t) s.ftable f file
    have htoken := htokens t ht
    have hshared : (s.setFile f file).issues t = s.issues t := by cases t <;> rfl
    rw [hshared]
    simp only [Multiset.count_add, Shared.setFile] at hbefore ⊢
    omega
  · by_cases hg : g = f
    · subst hg
      simpa [Shared.setFile] using hproper
    · simpa [Shared.setFile, hg] using hs.proper g

theorem sum_issues_ref (s : Shared) (f : Fin NFILE) :
    ∑ g, (s.ftable g).issues g (.ref f) = (s.ftable f).issues f (.ref f) := by
  refine Finset.sum_eq_single f (fun g _ hg ↦ ?_) (fun hf ↦ absurd (Finset.mem_univ f) hf)
  simp [File.issues, hg.symm]

theorem sum_issues_fresh (s : Shared) (f : Fin NFILE) :
    ∑ g, (s.ftable g).issues g (.fresh f) = (s.ftable f).issues f (.fresh f) := by
  refine Finset.sum_eq_single f (fun g _ hg ↦ ?_) (fun hf ↦ absurd (Finset.mem_univ f) hf)
  simp [File.issues, hg.symm]

/-- Who holds a reference finds the file in use and with a type. -/
theorem of_ref (hs : Balanced ram s h) (hmem : .ref f ∈ h) :
    (s.ftable f).type ≠ .none ∧ 1 ≤ (s.ftable f).ref := by
  have hcount := Multiset.count_pos.mpr hmem
  have htoken := hs.tokens (.ref f) rfl
  rw [sum_issues_ref] at htoken
  simp only [File.holds, File.issues, Shared.issues, Finset.sum_const_zero, true_and] at htoken
  split at htoken
  · exact ⟨‹_›, by omega⟩
  · omega

/-- Who holds the reference to a new file finds it without a type. -/
theorem of_fresh (hs : Balanced ram s h) (hmem : .fresh f ∈ h) :
    (s.ftable f).type = .none ∧ (s.ftable f).ref = 1 := by
  have hcount := Multiset.count_pos.mpr hmem
  have htoken := hs.tokens (.fresh f) rfl
  rw [sum_issues_fresh] at htoken
  simp only [File.holds, File.issues, Shared.issues, Finset.sum_const_zero, true_and] at htoken
  split at htoken
  · have hsingle := (hs.proper f).single ‹_›
    exact ⟨‹_›, by omega⟩
  · omega

theorem pipe_unique (hs : Balanced ram s h) {q q' : Pipe} (hq : q ∈ s.pipes) (hq' : q' ∈ s.pipes)
    (hpage : q.page = q'.page) : q = q' := by
  have hnodup : (s.pipes.map Pipe.page).Nodup := by
    rw [← Multiset.coe_nodup]
    refine Multiset.nodup_of_le ?_ ram.nodup
    rw [← hs.balance]
    exact (Multiset.le_add_left _ _).trans (Multiset.le_add_right _ _)
  exact List.inj_on_of_nodup_map hnodup hq hq' hpage

/-- Who holds an end of a pipe finds the pipe, with that end open. -/
theorem of_pipeEnd (hs : Balanced ram s h) (hmem : .pipeEnd pi writable ∈ h) :
    ∃ q, findPipe s pi = some q ∧ q ∈ s.pipes ∧ q.page = pi ∧ q.isOpen writable = true := by
  have hcount := Multiset.count_pos.mpr hmem
  have htoken := hs.tokens (.pipeEnd pi writable) rfl
  have hissues : ∑ g, (s.ftable g).issues g (.pipeEnd pi writable) = 0 := by simp [File.issues]
  rw [hissues, zero_add] at htoken
  have hopen : 0 < s.issues (.pipeEnd pi writable) := by omega
  obtain ⟨q, hq, hqopen⟩ := List.countP_pos_iff.mp hopen
  obtain ⟨hpage, hqopen⟩ : q.page = pi ∧ q.isOpen writable = true := by simpa using hqopen
  refine ⟨q, ?_, hq, hpage, hqopen⟩
  cases hfind : findPipe s pi with
  | none =>
    have hnot := List.find?_eq_none.mp hfind q hq
    simp [hpage] at hnot
  | some q' =>
    have hpage' : q'.page = pi := by simpa using List.find?_some hfind
    rw [hs.pipe_unique (List.mem_of_find?_eq_some hfind) hq (hpage'.trans hpage.symm)]

/-- What a file refers to has given out a token. -/
theorem issues_pos {t : Token} (hs : Balanced ram s h) (ht : (s.ftable f).holds t = 1) :
    0 < s.issues t := by
  have htoken := hs.tokens t (by cases t <;> simp_all [File.holds, Token.counted])
  have hissues : ∑ g, (s.ftable g).issues g t = 0 := by
    cases t <;> simp_all [File.holds, File.issues]
  have hsum := Finset.add_sum_erase Finset.univ (fun g ↦ (s.ftable g).holds t) (Finset.mem_univ f)
  omega

/-- The reference count of an inode changes with the tokens for it. -/
theorem setIref {n : ℕ} (hs : Balanced ram s (h + rest)) (hsame : SamePages h h')
    (htokens : ∀ t, t ≠ .inode ip → h'.count t = h.count t)
    (hinode : h'.count (.inode ip) + s.iref ip = h.count (.inode ip) + n) :
    Balanced ram { s with iref := Function.update s.iref ip n } (h' + rest) := by
  refine ⟨hs.kernelEnd, ?_, contents_of_samePages hsame hs.contents, fun t ht ↦ ?_, hs.proper⟩
  · rw [pagesOf_add, hsame.pages, ← pagesOf_add]
    exact hs.balance
  · have hbefore := hs.tokens t ht
    by_cases heq : t = .inode ip
    · subst heq
      simp only [Multiset.count_add, Shared.issues, Function.update_self] at hbefore ⊢
      omega
    · rw [Multiset.count_add, htokens t heq, ← Multiset.count_add, hbefore]
      cases t with
      | inode ip' =>
        have hne : ip' ≠ ip := fun h ↦ heq (h ▸ rfl)
        simp only [Shared.issues, Function.update_of_ne hne]
      | _ => rfl

/-- The pipes `old` become the pipes `new`. -/
theorem setPipes (new : List Pipe) {old others : List Pipe} (hs : Balanced ram s (h + rest))
    (hold : s.pipes.Perm (old ++ others))
    (hpages : (new.map Pipe.page : Multiset Page) + pagesOf h' =
      (old.map Pipe.page : List Page) + pagesOf h)
    (hdata : ∀ pg bytes, .data pg bytes ∈ h' → .data pg bytes ∈ h)
    (htokens : ∀ t, t.counted = true → h'.count t + openEnds old t = h.count t + openEnds new t) :
    Balanced ram { s with pipes := new ++ others } (h' + rest) := by
  refine ⟨hs.kernelEnd, ?_, ?_, fun t ht ↦ ?_, hs.proper⟩
  · have hmap : ((s.pipes.map Pipe.page : List Page) : Multiset Page) =
        (old.map Pipe.page : List Page) + (others.map Pipe.page : List Page) := by
      rw [Multiset.coe_add, ← List.map_append]
      exact Multiset.coe_eq_coe.mpr (hold.map _)
    rw [← hs.balance, hmap, List.map_append, ← Multiset.coe_add, pagesOf_add, pagesOf_add]
    calc (s.freelist : Multiset Page) + ((new.map Pipe.page : List Page) +
          (others.map Pipe.page : List Page)) + (pagesOf h' + pagesOf rest)
        = s.freelist + (others.map Pipe.page : List Page) + pagesOf rest +
          ((new.map Pipe.page : List Page) + pagesOf h') := by ac_rfl
      _ = s.freelist + (others.map Pipe.page : List Page) + pagesOf rest +
          ((old.map Pipe.page : List Page) + pagesOf h) := by rw [hpages]
      _ = _ := by ac_rfl
  · intro pg bytes hmem
    apply hs.contents
    rw [Multiset.mem_add] at hmem ⊢
    exact hmem.imp_left (hdata pg bytes)
  · have hbefore := hs.tokens t ht
    have htoken := htokens t ht
    cases t with
    | pipeEnd pi writable =>
      have hcount : s.issues (.pipeEnd pi writable) =
          openEnds old (.pipeEnd pi writable) + openEnds others (.pipeEnd pi writable) := by
        rw [← openEnds_append]
        exact hold.countP_eq _
      have hnew : Shared.issues { s with pipes := new ++ others } (.pipeEnd pi writable) =
          openEnds new (.pipeEnd pi writable) + openEnds others (.pipeEnd pi writable) :=
        List.countP_append
      simp only [Multiset.count_add] at hbefore ⊢
      omega
    | _ =>
      simp only [openEnds, Nat.add_zero] at htoken
      rw [Multiset.count_add, htoken, ← Multiset.count_add]
      exact hbefore

end Balanced

/-! ## Specifications -/

/-- References come and go without pages. -/
theorem samePages_add {t : Token} (ht : t.counted = true) : SamePages h (h + {t}) := by
  refine ⟨?_, fun pg bytes hmem ↦ ?_⟩
  · rw [pagesOf_add, pagesOf_singleton]
    cases t with
    | page | data => cases ht
    | _ => exact add_zero _
  · rw [Multiset.mem_add, Multiset.mem_singleton] at hmem
    rcases hmem with hmem | rfl
    · exact hmem
    · cases ht

theorem SamePages.symm_of_le (hsame : SamePages h h') (hle : h ≤ h') : SamePages h' h :=
  ⟨hsame.pages.symm, fun _ _ hmem ↦ Multiset.mem_of_le hle hmem⟩

theorem SamePages.trans {h'' : Held} (hsame : SamePages h h') (hsame' : SamePages h' h'') :
    SamePages h h'' :=
  ⟨hsame'.pages.trans hsame.pages, fun pg bytes hmem ↦ hsame.data pg bytes (hsame'.data pg bytes hmem)⟩

theorem samePages_remove {t : Token} (ht : t.counted = true) : SamePages (h + {t}) h :=
  (samePages_add ht).symm_of_le (Multiset.le_add_right _ _)

theorem wp_idup {Q : Unit → Held → Prop} (hQ : Q () (h + {.inode ip})) :
    (idup ip).wp (Balanced ram) Q h := by
  apply Prog.wp_step
  intro _ s rest hs
  refine ⟨h + {.inode ip}, hs.setIref (samePages_add rfl) ?_ ?_, fun _ ↦ hQ⟩
  · intro t ht
    simp [ht]
  · simp
    omega

theorem wp_iput {Q : Unit → Held → Prop} (hQ : Q () h) :
    (iput ip).wp (Balanced ram) Q (h + {.inode ip}) := by
  apply Prog.wp_step
  intro _ s rest hs
  have hissued := hs.tokens (.inode ip) rfl
  have hzero : ∑ f, (s.ftable f).issues f (.inode ip) = 0 := by simp [File.issues]
  have hpos : 1 ≤ s.iref ip := by
    simp only [hzero, Multiset.count_add, Multiset.count_singleton_self, Shared.issues] at hissued
    omega
  refine ⟨h, hs.setIref (samePages_remove rfl) ?_ ?_, fun _ ↦ hQ⟩
  · intro t ht
    simp [ht]
  · simp
    omega

theorem wp_filealloc {Q : Option (Fin NFILE) → Held → Prop} (hnone : Q none h)
    (hsome : ∀ f, Q (some f) (h + {.fresh f})) : filealloc.wp (Balanced ram) Q h := by
  apply Prog.wp_step
  intro _ s rest hs
  cases hfind : findFile s with
  | none =>
    exact ⟨h, hs, fun _ ↦ hnone⟩
  | some f =>
    have href : (s.ftable f).ref = 0 := by simpa using List.find?_some hfind
    have htype := (hs.proper f).closed href
    refine ⟨h + {.fresh f}, hs.setFile (samePages_add rfl) ⟨by simp, fun _ ↦ le_rfl⟩ ?_,
      fun _ ↦ hsome f⟩
    intro t _
    cases t <;> simp [File.issues, File.holds, htype, href, Multiset.count_singleton]

theorem wp_filedup {Q : Unit → Held → Prop} (hmem : .ref f ∈ h) (hQ : Q () (h + {.ref f})) :
    (filedup f).wp (Balanced ram) Q h := by
  apply Prog.wp_step
  intro _ s rest hs
  obtain ⟨htype, href⟩ := hs.of_ref (Multiset.mem_add.mpr (.inl hmem))
  have hnot : ¬(s.ftable f).ref < 1 := Nat.not_lt.mpr href
  simp only [if_neg hnot]
  refine ⟨h + {.ref f}, hs.setFile (samePages_add rfl) ⟨by simp, fun h ↦ absurd h htype⟩ ?_,
    fun _ ↦ hQ⟩
  intro t _
  cases t with
  | ref g =>
    by_cases hg : g = f
    · subst hg
      simp [File.issues, File.holds, htype]
      omega
    · simp [File.issues, File.holds, hg]
  | _ => simp [File.issues, File.holds, htype]

/-- Closing an end of a pipe takes back its token. -/
theorem openEnds_close {q : Pipe} (hopen : q.isOpen writable = true) (t : Token) :
    openEnds [q] t =
      openEnds [q.close writable] t + Multiset.count t {.pipeEnd q.page writable} := by
  cases t with
  | pipeEnd pi w =>
    by_cases hpage : q.page = pi
    · subst hpage
      cases writable <;> cases w <;>
        simp_all [openEnds, Pipe.isOpen, Pipe.close]
    · have hne : pi ≠ q.page := Ne.symm hpage
      have hclose : (q.close writable).page = q.page := by cases writable <;> rfl
      simp [openEnds, hclose, hpage, hne]
  | _ => simp [openEnds]

theorem openEnds_of_done {q : Pipe} (hdone : q.done = true) (t : Token) : openEnds [q] t = 0 := by
  cases t with
  | pipeEnd pi w => cases w <;> simp_all [openEnds, Pipe.isOpen, Pipe.done]
  | _ => rfl

/-- An end of a pipe is closed, and the pipe with its last end. -/
theorem wp_pipeclose {Q : Unit → Held → Prop} (hQ : Q () h) :
    (pipeclose pi writable).wp (Balanced ram) Q (h + {.pipeEnd pi writable}) := by
  apply Prog.wp_step
  intro _ s rest hs
  have hmem : .pipeEnd pi writable ∈ h + {.pipeEnd pi writable} + rest := by simp
  obtain ⟨q, hfind, hq, rfl, hopen⟩ := hs.of_pipeEnd hmem
  have hperm : s.pipes.Perm ([q] ++ s.pipes.erase q) := List.perm_cons_erase hq
  have hcount := openEnds_close hopen
  simp only [hfind]
  by_cases hdone : (q.close writable).done = true
  · simp only [if_pos hdone]
    refine ⟨h + {.page q.page}, ?_, wp_kfree .page rfl hQ⟩
    refine hs.setPipes [] hperm ?_ (fun pg bytes hmem ↦ ?_) fun t ht ↦ ?_
    · simp [add_comm]
    · rw [Multiset.mem_add, Multiset.mem_singleton] at hmem ⊢
      exact hmem.imp_right nofun
    · have hclosed := openEnds_of_done hdone t
      rw [Multiset.count_add, Multiset.count_add, count_page ht, hcount t, hclosed,
        openEnds_nil]
      omega
  · simp only [if_neg hdone]
    have hpage : (q.close writable).page = q.page := by cases writable <;> rfl
    refine ⟨h, ?_, fun _ ↦ hQ⟩
    refine hs.setPipes [q.close writable] hperm ?_ (fun pg bytes hmem ↦ ?_) fun t ht ↦ ?_
    · simp [hpage]
    · exact Multiset.mem_add.mpr (.inl hmem)
    · rw [Multiset.count_add, hcount t]
      omega

/-- The last reference to a file closes what it refers to. -/
theorem wp_fileclose {Q : Unit → Held → Prop} (hQ : Q () h) :
    (fileclose f).wp (Balanced ram) Q (h + {.ref f}) := by
  apply Prog.wp_step
  intro _ s rest hs
  obtain ⟨htype, href⟩ := hs.of_ref (f := f) (by simp)
  have hnot : ¬(s.ftable f).ref < 1 := Nat.not_lt.mpr href
  simp only [if_neg hnot]
  by_cases hmore : (s.ftable f).ref - 1 > 0
  · simp only [if_pos hmore]
    refine ⟨h, hs.setFile (samePages_remove rfl) ⟨?_, fun h ↦ absurd h htype⟩ ?_, fun _ ↦ hQ⟩
    · intro hzero
      exact absurd hzero (Nat.ne_of_gt hmore)
    · intro t _
      cases t with
      | ref g =>
        by_cases hg : g = f
        · subst hg
          simp [File.issues, File.holds, htype]
          omega
        · simp [File.issues, File.holds, hg]
      | _ => simp [File.issues, File.holds, htype]
  · have hone : (s.ftable f).ref = 1 := by omega
    simp only [if_neg hmore]
    cases hf : (s.ftable f).type with
    | none => exact absurd hf htype
    | pipe pi writable =>
      refine ⟨h + {.pipeEnd pi writable}, ?_, wp_pipeclose hQ⟩
      refine hs.setFile ((samePages_remove rfl).trans (samePages_add rfl))
        ⟨fun _ ↦ rfl, fun _ ↦ Nat.zero_le 1⟩ fun t _ ↦ ?_
      cases t <;> simp [File.issues, File.holds, hf, hone, Multiset.count_singleton, eq_comm]
    | inode ip =>
      refine ⟨h + {.inode ip}, ?_, wp_iput hQ⟩
      refine hs.setFile ((samePages_remove rfl).trans (samePages_add rfl))
        ⟨fun _ ↦ rfl, fun _ ↦ Nat.zero_le 1⟩ fun t _ ↦ ?_
      cases t <;> simp [File.issues, File.holds, hf, hone, Multiset.count_singleton, eq_comm]

/-- A file that has no type yet is given back. -/
theorem wp_fileclose_fresh {Q : Unit → Held → Prop} (hQ : Q () h) :
    (fileclose f).wp (Balanced ram) Q (h + {.fresh f}) := by
  apply Prog.wp_step
  intro _ s rest hs
  obtain ⟨htype, href⟩ := hs.of_fresh (f := f) (by simp)
  simp only [href, htype]
  refine ⟨h, hs.setFile (samePages_remove rfl) ⟨fun _ ↦ rfl, fun _ ↦ Nat.zero_le 1⟩ ?_,
    fun _ ↦ hQ⟩
  intro t _
  cases t <;> simp [File.issues, File.holds, htype, href, Multiset.count_singleton, eq_comm]

/-- A new file gets a type, and with it the token `tok`. -/
theorem Balanced.setType (type : Target) {tok : Token}
    (hs : Balanced ram s (h + {tok} + {.fresh f} + rest)) (htok : tok.counted = true)
    (hnone : type ≠ .none)
    (hholds : ∀ ref t, (File.mk ref type).holds t = Multiset.count t {tok}) :
    Balanced ram (s.setFile f { s.ftable f with type := type }) (h + {.ref f} + rest) := by
  obtain ⟨htype, href⟩ := hs.of_fresh (f := f) (by simp)
  refine hs.setFile ?_ ⟨fun hzero ↦ ?_, fun h ↦ absurd h hnone⟩ fun t _ ↦ ?_
  · exact (samePages_remove rfl).trans ((samePages_remove htok).trans (samePages_add rfl))
  · exact absurd (hzero.symm.trans href) (by decide)
  · rw [hholds]
    simp only [Multiset.count_add]
    cases t <;> simp [File.issues, File.holds, htype, href, hnone, Multiset.count_singleton]
    all_goals omega

theorem wp_initFile {Q : Unit → Held → Prop} (hQ : Q () (h + {.ref f})) :
    (initFile f ip).wp (Balanced ram) Q (h + {.inode ip} + {.fresh f}) := by
  apply Prog.wp_step
  intro _ s rest hs
  refine ⟨h + {.ref f}, hs.setType (.inode ip) rfl nofun fun ref t ↦ ?_, fun _ ↦ hQ⟩
  cases t <;> simp [File.holds, Multiset.count_singleton, eq_comm]

theorem holds_pipe (ref : ℕ) (t : Token) :
    (File.mk ref (.pipe pi writable)).holds t = Multiset.count t {.pipeEnd pi writable} := by
  cases t <;> simp [File.holds, Multiset.count_singleton, eq_comm]

/-- A page and two new files become a pipe. -/
theorem wp_initPipe {f0 f1 : Fin NFILE} {Q : Unit → Held → Prop}
    (hQ : Q () (h + {.ref f0} + {.ref f1})) :
    (initPipe f0 f1 pi).wp (Balanced ram) Q (h + {.fresh f0} + {.fresh f1} + {.page pi}) := by
  apply Prog.wp_step
  intro _ s rest hs
  refine ⟨h + {.ref f0} + {.ref f1}, ?_, fun _ ↦ hQ⟩
  -- the pipe with both ends open, then the two files that take the ends
  have hpipe : Balanced ram { s with pipes := [⟨pi, true, true⟩] ++ s.pipes }
      (h + {.fresh f0} + {.fresh f1} + {.pipeEnd pi false} + {.pipeEnd pi true} + rest) := by
    refine hs.setPipes _ (List.Perm.refl ([] ++ s.pipes)) ?_ (fun pg bytes hmem ↦ ?_) fun t ht ↦ ?_
    · simp [add_comm]
    · simp only [Multiset.mem_add, Multiset.mem_singleton, reduceCtorEq, or_false] at hmem ⊢
      exact hmem
    · rw [openEnds_nil]
      simp only [Multiset.count_add, count_page ht]
      cases t with
      | pipeEnd pi' w =>
        by_cases hpage : pi' = pi
        · subst hpage
          cases w <;> simp [openEnds, Pipe.isOpen]
        · have hne : pi ≠ pi' := Ne.symm hpage
          simp [openEnds, hpage, hne]
      | _ => simp [openEnds]
  have hheld : h + {.fresh f0} + {.fresh f1} + {.pipeEnd pi false} + {.pipeEnd pi true} + rest =
      h + {.fresh f1} + {.pipeEnd pi true} + {.pipeEnd pi false} + {.fresh f0} + rest := by
    ac_rfl
  rw [hheld] at hpipe
  have hfirst := hpipe.setType (.pipe pi false) rfl nofun holds_pipe
  have hheld' : h + {.fresh f1} + {.pipeEnd pi true} + {.ref f0} + rest =
      h + {.ref f0} + {.pipeEnd pi true} + {.fresh f1} + rest := by
    ac_rfl
  rw [hheld'] at hfirst
  exact hfirst.setType (.pipe pi true) rfl nofun holds_pipe

/-- `pipealloc` returns references to two files, or nothing. -/
theorem wp_pipealloc {Q : Option (Fin NFILE × Fin NFILE) → Held → Prop} (hnone : Q none h)
    (hsome : ∀ f0 f1, Q (some (f0, f1)) (h + {.ref f0} + {.ref f1})) :
    pipealloc.wp (Balanced ram) Q h := by
  rw [pipealloc]
  apply Prog.wp_bind
  apply wp_filealloc
  · exact Prog.wp_pure hnone
  intro f0
  apply Prog.wp_bind
  apply wp_filealloc
  · apply Prog.wp_bind
    exact wp_fileclose_fresh (Prog.wp_pure hnone)
  intro f1
  apply Prog.wp_bind
  apply wp_kalloc
  · apply Prog.wp_bind
    rw [add_right_comm]
    apply wp_fileclose_fresh
    apply Prog.wp_bind
    exact wp_fileclose_fresh (Prog.wp_pure hnone)
  · intro pi
    apply Prog.wp_bind
    exact wp_initPipe (Prog.wp_pure (hsome f0 f1))

end EnhancedXv6.Memory
