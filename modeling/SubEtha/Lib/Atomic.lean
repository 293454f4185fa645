import SubEtha.Lib.Lists

namespace SubEtha.Lib
open List

/-- A program over a shared state, one atomic step at a time: a step reads the state, writes it
and goes on with what it read. -/
inductive Prog (S α : Type)
  | done (a : α)
  | step (write : S → S) (next : S → Prog S α)

namespace Prog

variable {S α β : Type}

def andThen : Prog S α → (α → Prog S β) → Prog S β
  | .done a, k => k a
  | .step write next, k => .step write fun s => (next s).andThen k

instance : Monad (Prog S) where
  pure := .done
  bind := andThen

def load (read : S → α) : Prog S α := .step id fun s => .done (read s)

def store (write : S → S) : Prog S Unit := .step write fun _ => .done ()

/-- A compare-and-swap: write if the test holds, and say whether it did. -/
def swap (test : S → Bool) (write : S → S) : Prog S Bool :=
  .step (fun s => if test s then write s else s) fun s => .done (test s)

/-- The program run to its end with no one else about. -/
def exec : Prog S α → S → S × α
  | .done a, s => (s, a)
  | .step write next, s => (next s).exec (write s)

@[simp] theorem exec_pure (a : α) (s : S) : (pure a : Prog S α).exec s = (s, a) := rfl

@[simp] theorem exec_bind (p : Prog S α) (k : α → Prog S β) (s : S) :
    (p >>= k).exec s = (k (p.exec s).2).exec (p.exec s).1 := by
  induction p generalizing s with
  | done a => rfl
  | step write next ih => exact ih s (write s)

@[simp] theorem exec_load (read : S → α) (s : S) : (load read).exec s = (s, read s) := rfl

@[simp] theorem exec_store (write : S → S) (s : S) : (store write).exec s = (write s, ()) := rfl

@[simp] theorem exec_swap (test : S → Bool) (write : S → S) (s : S) :
    (swap test write).exec s = (if test s then write s else s, test s) := rfl

variable (inv : S → Prop) (rely guar : S → S → Prop)

/-- From this state on, whatever the others do within `rely`, every step keeps the invariant,
stays within `guar`, and the end meets `post`. -/
def Keeps : Prog S α → (α → S → Prop) → S → Prop
  | .done a, post, s => post a s
  | .step write next, post, s => ∀ t, rely s t → inv t →
      inv (write t) ∧ guar t (write t) ∧ (next t).Keeps post (write t)

def Spec (pre : S → Prop) (p : Prog S α) (post : α → S → Prop) : Prop :=
  ∀ s, inv s → pre s → p.Keeps inv rely guar post s

def Stable (pre : S → Prop) : Prop := ∀ s t, rely s t → inv s → inv t → pre s → pre t

variable {inv rely guar} {p : Prog S α}

theorem Keeps.mono {s : S} (hs : inv s) (h : p.Keeps inv rely guar post s)
    (hpost : ∀ a t, inv t → post a t → post' a t) : p.Keeps inv rely guar post' s := by
  induction p generalizing s with
  | done a => exact hpost a s hs h
  | step write next ih =>
    intro t ht hi
    obtain ⟨hinv, hguar, hnext⟩ := h t ht hi
    exact ⟨hinv, hguar, ih t hinv hnext⟩

variable {k : α → Prog S β}

theorem Keeps.andThen {post : β → S → Prop} {s : S}
    (h : p.Keeps inv rely guar (fun a t => (k a).Keeps inv rely guar post t) s) :
    (p >>= k).Keeps inv rely guar post s := by
  induction p generalizing s with
  | done a => exact h
  | step write next ih =>
    intro t ht hi
    obtain ⟨hinv, hguar, hnext⟩ := h t ht hi
    exact ⟨hinv, hguar, ih t hnext⟩

namespace Spec

theorem done (h : ∀ s, inv s → pre s → post a s) : Spec inv rely guar pre (pure a) post := h

theorem bind {pre : S → Prop} {mid : α → S → Prop} {post : β → S → Prop}
    (hp : Spec inv rely guar pre p mid) (hk : ∀ a, Spec inv rely guar (mid a) (k a) post) :
    Spec inv rely guar pre (p >>= k) post :=
  fun s hs hpre => Keeps.andThen ((hp s hs hpre).mono hs fun a t ht hmid => hk a t ht hmid)

theorem skip : Spec inv rely guar pre (pure a) fun _ _ => True := fun _ _ _ => trivial

section
variable {pre pre' : S → Prop} {post : α → S → Prop}

section
variable {p : Prog S α} (h : Spec inv rely guar pre p post) (hpre : ∀ s, inv s → pre' s → pre s)
include h hpre

theorem require : Spec inv rely guar pre' p post := fun s hs hs' => h s hs (hpre s hs hs')

theorem weaken (hpost : ∀ a s, inv s → post a s → post' a s) : Spec inv rely guar pre' p post' :=
  fun s hs hs' => (h s hs (hpre s hs hs')).mono hs hpost

end

/-- What neither the others nor this process can break is kept alongside. -/
theorem frame {kept : S → Prop} (hrely : ∀ s t, rely s t → kept s → kept t)
    (hguar : ∀ s t, guar s t → kept s → kept t) (h : Spec inv rely guar pre p post) :
    Spec inv rely guar (fun s => pre s ∧ kept s) p fun a s => post a s ∧ kept s := by
  intro s hs hpre
  have hkeeps := h s hs hpre.1
  have hkept := hpre.2
  clear h hpre
  induction p generalizing s with
  | done a => exact ⟨hkeeps, hkept⟩
  | step write next ih =>
    intro t ht hi
    obtain ⟨hinv, hstep, hnext⟩ := hkeeps t ht hi
    exact ⟨hinv, hstep, ih t (write t) hinv hnext (hguar _ _ hstep (hrely _ _ ht hkept))⟩

theorem load {read : S → α} (hrefl : ∀ s, guar s s) (hstable : Stable inv rely pre)
    (h : ∀ s, inv s → pre s → post (read s) s) :
    Spec inv rely guar pre (Prog.load read) post := fun s hs hpre t hrely ht =>
  ⟨ht, hrefl t, h t ht (hstable s t hrely hs ht hpre)⟩

end

theorem store (hstable : Stable inv rely pre)
    (h : ∀ s, inv s → pre s → inv (write s) ∧ guar s (write s) ∧ post () (write s)) :
    Spec inv rely guar pre (Prog.store write) post := fun s hs hpre t hrely ht =>
  h t ht (hstable s t hrely hs ht hpre)

theorem swap (hrefl : ∀ s, guar s s) (hstable : Stable inv rely pre)
    (hno : ∀ s, inv s → pre s → test s = false → post false s)
    (hyes : ∀ s, inv s → pre s → test s = true →
      inv (write s) ∧ guar s (write s) ∧ post true (write s)) :
    Spec inv rely guar pre (Prog.swap test write) post := by
  intro s hs hpre t hrely ht
  have hpre' := hstable s t hrely hs ht hpre
  cases htest : test t with
  | false =>
    simp only [htest]
    exact ⟨ht, hrefl t, hno t ht hpre' htest⟩
  | true =>
    simp only [htest]
    exact hyes t ht hpre' htest

end Spec
end Prog

/-- Processes side by side over a shared state, each with what it has left to do. -/
structure Pool (S : Type) where
  state : S
  procs : List (Prog S Unit)

namespace Pool

variable {S : Type}

def step (p : Pool S) (i : Nat) : Pool S :=
  match p.procs[i]? with
  | some (.step write next) => ⟨write p.state, p.procs.set i (next p.state)⟩
  | _ => p

/-- The processes take turns in any order, and stop wherever it ends. -/
def run (p : Pool S) (schedule : List Nat) : Pool S := schedule.foldl step p

variable {inv : S → Prop} {rely guar : Nat → S → S → Prop}

/-- Every process keeps the invariant from here on. -/
def Safe (inv : S → Prop) (rely guar : Nat → S → S → Prop) (p : Pool S) : Prop :=
  inv p.state ∧ ∀ (i : Nat) (prog : Prog S Unit), p.procs[i]? = some prog →
    prog.Keeps inv (rely i) (guar i) (fun _ _ => True) p.state

theorem keeps_of_rely (htrans : ∀ s t u, r s t → r t u → r s u) {prog : Prog S Unit} {s t : S}
    (h : prog.Keeps inv r g (fun _ _ => True) s) (hst : r s t) :
    prog.Keeps inv r g (fun _ _ => True) t := by
  cases prog with
  | done a => trivial
  | step write next => exact fun u htu hu => h u (htrans s t u hst htu) hu

theorem length_step (p : Pool S) (i : Nat) : (p.step i).procs.length = p.procs.length := by
  unfold Pool.step
  split
  · exact length_set
  · rfl

/-- What each process keeps under the interference of the others, the pool keeps. -/
theorem Safe.run (hrefl : ∀ i s, rely i s s)
    (htrans : ∀ i s t u, rely i s t → rely i t u → rely i s u) {p : Pool S}
    (hothers : ∀ i < p.procs.length, ∀ j < p.procs.length, i ≠ j → ∀ s t, guar i s t → rely j s t)
    (h : Safe inv rely guar p) (schedule : List Nat) : Safe inv rely guar (p.run schedule) := by
  induction schedule generalizing p with
  | nil => exact h
  | cons i schedule ih =>
    refine ih (by rw [length_step]; exact hothers) ?_
    unfold Pool.step
    split
    · rename_i write next hi
      have hlt := lt_of_some hi
      obtain ⟨hinv, hguar, hnext⟩ := h.2 i _ hi p.state (hrefl i p.state) h.1
      refine ⟨hinv, fun j prog hj => ?_⟩
      rcases set_some hj with ⟨rfl, rfl⟩ | ⟨hij, hj⟩
      · exact hnext
      · have hltj := lt_of_some hj
        exact keeps_of_rely (htrans j) (h.2 j prog hj) (hothers i hlt j hltj hij _ _ hguar)
    · exact h

end Pool
end SubEtha.Lib
