import Mathlib.Data.List.Sort
import StreamForge.Storage.Base

/-!
# Assignors

`RangeAssignor` and `RoundRobinAssignor`. Both hand out `(topic, partition)`
pairs by pushing them, in a fixed order, onto the lists of the members they
choose, so an assignor is the list of its pushes (`rangePushes`,
`roundRobinPushes`) and `assign` runs them.
-/

namespace StreamForge

structure TopicPartition where
  topic : Bytes
  partition : UInt16
deriving DecidableEq

inductive AssignorStrategy where
  | Range
  | RoundRobin
deriving DecidableEq

namespace Assignor

/-- `operator<` of `TopicPartition`, as a test for the sort. -/
def notAfter (a b : TopicPartition) : Bool :=
  if a.topic ≠ b.topic then decide (a.topic ≤ b.topic) else decide (a.partition ≤ b.partition)

abbrev Assignments := Bytes → List TopicPartition

/-- `result[member].push_back(tp)`. -/
def push (result : Assignments) (entry : Bytes × TopicPartition) : Assignments :=
  Function.update result entry.1 (result entry.1 ++ [entry.2])

def runPushes (pushes : List (Bytes × TopicPartition)) : Assignments :=
  pushes.foldl push fun _ => []

/-- The loops of `RangeAssignor::assign`: each member gets a run of every
topic's partitions, the first `extra` members one more. -/
def rangePushes (sortedMembers : List Bytes) (topicPartitions : List (Bytes × UInt16)) :
    List (Bytes × TopicPartition) :=
  let numMembers := sortedMembers.length
  topicPartitions.flatMap fun (topic, numParts) =>
    let base := numParts.toNat / numMembers
    let extra := numParts.toNat % numMembers
    sortedMembers.zipIdx.flatMap fun (member, i) =>
      let count := base + if i < extra then 1 else 0
      let start := i * base + min i extra
      (List.range count).map fun p => (member, ⟨topic, UInt16.ofNat (start + p)⟩)

def allPartitions (topicPartitions : List (Bytes × UInt16)) : List TopicPartition :=
  (topicPartitions.flatMap fun (topic, numParts) =>
    (List.range numParts.toNat).map fun p => ⟨topic, UInt16.ofNat p⟩).insertionSort
      fun a b => notAfter a b = true

def roundRobinPushes (sortedMembers : List Bytes) (topicPartitions : List (Bytes × UInt16)) :
    List (Bytes × TopicPartition) :=
  (allPartitions topicPartitions).zipIdx.map fun (tp, i) =>
    (sortedMembers.getD (i % sortedMembers.length) [], tp)

/-- `assign` of the assignor for a strategy. -/
def assign (strategy : AssignorStrategy) (sortedMembers : List Bytes)
    (topicPartitions : List (Bytes × UInt16)) : Assignments :=
  if sortedMembers.isEmpty then fun _ => []
  else
    match strategy with
    | .Range => runPushes (rangePushes sortedMembers topicPartitions)
    | .RoundRobin => runPushes (roundRobinPushes sortedMembers topicPartitions)

end Assignor

end StreamForge
