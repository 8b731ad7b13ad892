import Mathlib
import SmartNic.Collective.Rdma
import SmartNic.Library.CallTrace

/-!
# Setup of the rings

The MPI calls of `execute_doca_create_ring_cmd` of `comch_server.c`, for given
results of the local steps on every rank.  What the connections are used for
afterwards does not matter here, except that RDB needs the one to the next rank.
-/

namespace SmartNic.Setup

open SmartNic.CallTrace
open SmartNic.Collective (nextRank)

/-- The collective MPI calls. -/
inductive MpiCollective where
  | barrier
  | commDup
deriving DecidableEq, Repr

abbrev MpiCall (n : ℕ) := Call (Fin n) MpiCollective ℕ

/-- `TAG_EXCHANGE`. -/
def TAG_EXCHANGE : ℕ := 0x500

/-- The tag of the exchanges for ring 1. -/
def TAG_EXCHANGE_RING1 : ℕ := 0x501

def TAG_RDB : ℕ := 0x12345

/-- `(i - 1 + world_size) % world_size`. -/
def prevRank {n : ℕ} (i : Fin n) : Fin n :=
  ⟨(i + n - 1) % n, Nat.mod_lt _ i.pos⟩

/-! ## Results of the local steps -/

/-- What succeeds on a rank in a round of a ring: creating, configuring and
exporting the context of its end, packing the command and allocating the
receive buffer for the exchange, and reading a connect command from what the
partner sent. -/
structure RoundResult where
  init : Bool
  configureAndStart : Bool
  exported : Bool
  packed : Bool
  allocated : Bool
  answered : Bool
deriving DecidableEq, Repr

/-- What succeeds on a rank: the checks at the entry, the rounds of both rings
and the steps of `rdb_init` before its exchange. -/
structure RankResult (n : ℕ) where
  queuesInit : Bool
  workingBuf : Bool
  ring0 : Fin n → RoundResult
  ring1 : Fin n → RoundResult
  rdbDisable : Bool
  exportMmap : Bool
  exportFits : Bool

/-! ## The calls -/

section Calls

variable {n : ℕ}

/-- `_mpi_exchange_cmd_with_tag`: the calls and whether it succeeds. -/
def mpiExchangeCmdWithTag (rank srcRank dstRank : Fin n) (tag : ℕ)
    (result : RoundResult) : List (MpiCall n) × Bool :=
  if srcRank = dstRank then ([], false)
  else if rank ≠ srcRank ∧ rank ≠ dstRank then ([], true)
  else
    let partner := if rank = srcRank then dstRank else srcRank
    if !result.packed then ([], false)
    else if !result.allocated then ([], false)
    else ([.sendrecv partner partner tag], result.answered)

/-- Round `i` of a ring: rank `i` sets up its receiving and the previous rank
its sending context.  Every way out passes one barrier. -/
def ringRound (tag : ℕ) (rank i : Fin n) (result : RoundResult) :
    List (MpiCall n) :=
  if rank ≠ i ∧ rank ≠ prevRank i then []
  else if !result.init then []
  else if !result.configureAndStart then []
  else if !result.exported then []
  else (mpiExchangeCmdWithTag rank i (prevRank i) tag result).1

/-- `conn_to_next` is set in the round of the next rank, whether or not the
connect succeeded. -/
def RankResult.connToNext (result : RankResult n) (rank : Fin n) : Bool :=
  let round := result.ring0 (nextRank rank)
  round.init && round.configureAndStart && round.exported &&
    (mpiExchangeCmdWithTag rank (nextRank rank) rank TAG_EXCHANGE round).2

/-- `rdb_init`. -/
def rdbInit (rank : Fin n) (result : RankResult n) : List (MpiCall n) :=
  if result.rdbDisable then []
  else if !result.connToNext rank then []
  else if !result.exportMmap then []
  else if !result.exportFits then []
  else [.sendrecv (prevRank rank) (nextRank rank) TAG_RDB]

/-- The rounds of the setup: those of both rings, which end with a barrier, and
the two communicators. -/
def setupRounds (rank : Fin n) (result : RankResult n) :
    List (List (MpiCall n) × MpiCollective) :=
  ((List.finRange n).map fun i =>
      (ringRound TAG_EXCHANGE rank i (result.ring0 i), .barrier)) ++
    ((List.finRange n).map fun i =>
      (ringRound TAG_EXCHANGE_RING1 rank i (result.ring1 i), .barrier)) ++
    [([], .commDup), ([], .commDup)]

/-- The MPI calls of `execute_doca_create_ring_cmd`. -/
def executeDocaCreateRingCmd (rank : Fin n) (result : RankResult n) :
    List (MpiCall n) :=
  if !result.queuesInit then []
  else if !result.workingBuf then []
  else ofRounds (setupRounds rank result) (rdbInit rank result)

/-- The calls of all ranks. -/
def setupTrace (results : Fin n → RankResult n) : Fin n → List (MpiCall n) :=
  fun rank => executeDocaCreateRingCmd rank (results rank)

end Calls

/-! ## Failures on both sides -/

section Paired

variable {n : ℕ}

def RoundResult.reaches (result : RoundResult) : Bool :=
  result.init && result.configureAndStart && result.exported &&
    result.packed && result.allocated

def RankResult.begins (result : RankResult n) : Bool :=
  result.queuesInit && result.workingBuf

/-- Nothing before the exchange of `rdb_init` fails. -/
def RankResult.reachesRdb (result : RankResult n) (rank : Fin n) : Bool :=
  let round := result.ring0 (nextRank rank)
  !result.rdbDisable && round.reaches && round.answered &&
    result.exportMmap && result.exportFits

/-- A step before an exchange fails on both partners or on none, and the entry
checks on all ranks or on none. -/
structure Paired (results : Fin n → RankResult n) : Prop where
  begins : ∀ r q, (results r).begins = (results q).begins
  ring0 : (∀ r, (results r).begins) → ∀ i,
    ((results i).ring0 i).reaches = ((results (prevRank i)).ring0 i).reaches
  ring1 : (∀ r, (results r).begins) → ∀ i,
    ((results i).ring1 i).reaches = ((results (prevRank i)).ring1 i).reaches
  rdb : (∀ r, (results r).begins) → ∀ r,
    (results r).reachesRdb r = (results (nextRank r)).reachesRdb (nextRank r)

end Paired

end SmartNic.Setup
