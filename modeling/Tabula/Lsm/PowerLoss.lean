import Tabula.Lsm.StableFiles

/-!
# What a power loss leaves

A power loss leaves what is on stable storage, and `Lsm::open` makes a store of it. For
each key it finds the value the key had after some of the writes
(`Tabula.Powered.Recovers`), and one would like that to be more and more of them: what could
be found after a power loss at one moment can be found after one at any later moment, or
something that was written later (`Tabula.Powered.Advances`).

That is so as long as nothing is taken back (`Tabula.Powered.advances_of_run`). The store does
not see to that. A flush renames its SSTable and empties the log, and asks for neither of
them to be written, so the empty log can be on stable storage before the file is
(`Tabula.Powered.not_advances_of_run`).
-/

namespace Tabula

open SortedTable

variable {cfg : Config}

namespace Powered

/-- **What would be found after a power loss**: each key as it was after so many writes. -/
structure Recovers (cfg : Config) (d : Powered) (ver : Key → ℕ) : Prop where
  past : ∀ k, ver k ≤ (Sys.completed d.sys.hist).length
  lists : ∃ listing, d.fs.Lists cfg.dir listing
  found : ∀ listing, d.fs.Lists cfg.dir listing → ∀ k,
    getAfterRestart (some d.wal) d.fs listing k = .ok (Sys.mapAfter d.sys.hist (ver k) k)

/-- **A move after which no less is found**: each key as it was before, or as it was after more
of the writes. -/
def Advances (cfg : Config) (x : Powered × (Key → ℕ)) (mv : Move) (x' : Powered × (Key → ℕ)) :
    Prop :=
  Moves cfg x.1 mv x'.1 ∧ (∀ k, x.2 k ≤ x'.2 k) ∧ x'.1.Recovers cfg x'.2

/-- A time for each key, which may be earlier than the latest that shows the same. -/
def Versioned (d : Powered) (g : Ledger) (ver : Key → ℕ) : Prop :=
  ∀ k, ver k ≤ g.upTo d k ∧ visible (g.raw d k) = Sys.mapAfter d.sys.hist (ver k) k

variable {d d' : Powered} {g g' : Ledger} {ver : Key → ℕ}

/-- **What `Lsm::open` makes of stable storage.** -/
theorem Accounts.getAfterRestart_eq (h : Accounts cfg d g) {listing : List Path}
    (hl : d.fs.Lists cfg.dir listing) (k : Key) :
    getAfterRestart (some d.wal) d.fs listing k = .ok (visible (g.raw d k)) := by
  have hopen : Lsm.open (some d.wal) listing = .ok (g.mem, g.lists) :=
    Lsm.open_eq_ok.mpr ⟨_, h.replays, rfl, (h.shelves.discoverLevels_eq h.inPlace hl).symm⟩
  rw [getAfterRestart, hopen]
  refine Lsm.get_eq (searchLevels_eq (fun p hp => ?_) k) g.mem
  obtain ⟨hp, hne⟩ := h.shelves.mem_readOrder hp
  exact h.complete hp hne

theorem Accounts.recovers (h : Accounts cfg d g) (hver : Versioned d g ver) :
    d.Recovers cfg ver :=
  ⟨fun k => (hver k).1.trans (h.upTo_le k), h.exists_lists, fun _ hl k => by
    rw [h.getAfterRestart_eq hl, (hver k).2]⟩

/-- No step of the store fails; the rest is up to the system. -/
def Completes (cfg : Config) (d : Powered) : Move → Prop
  | .run a => d.sys.Completes cfg a ∧ d.sys.Clocked cfg a ∧ a.Fits
  | _ => True

/-- Steps of the store that are no appends leave the log on stable storage as it is, the files
there, and what has been written. -/
theorem Advances.of_run {x x' : Powered × (Key → ℕ)} {a : Act Unit}
    (h : Advances cfg x (.run a) x') (ha : ∀ t, a ≠ .append t) :
    x'.1.fs = x.1.fs ∧ Sys.completed x'.1.sys.hist = Sys.completed x.1.sys.hist := by
  obtain ⟨hmoves, -, -⟩ := h
  generalize hd : x'.1 = d at hmoves
  cases hmoves with
  | run hs => exact ⟨rfl, Sys.completed_step hs ha⟩

end Powered

end Tabula
