import StreamForge.Broker.Topic

/-!
# The retention pass

`RetentionManager::run_one_pass`, which the background thread runs at every
interval. `clock` gives the system clock as each partition reads it.
-/

namespace StreamForge

open FileTrace

namespace RetentionManager

/-- The loop over the partitions of one topic, from partition `i` on. Returns
the number of segments that were deleted or, in a dry run, would be. -/
def scanPartitions (retentionMs retentionBytes : UInt64) (dryRun : Bool) (clock : ℕ → Int64)
    (i : ℕ) : List Partition → PartDirs → ℕ × List Partition × PartDirs
  | [], dirs => (0, [], dirs)
  | p :: rest, dirs =>
    match p.scanAndDeleteSegments retentionMs retentionBytes dryRun (clock i)
        (Fs.start (dirs i)) with
    | (candidates, p, fs) =>
      match scanPartitions retentionMs retentionBytes dryRun clock (i + 1) rest
          (Function.update dirs i fs.dir) with
      | (deleted, rest, dirs) => (candidates.length + deleted, p :: rest, dirs)

/-- Internal topics are skipped, and topics without a retention limit. -/
def scanTopic (t : Topic) (dirs : PartDirs) (dryRun : Bool) (clock : ℕ → Int64) :
    ℕ × Topic × PartDirs :=
  if TopicManager.isReserved t.name then (0, t, dirs)
  else if t.retentionMs = 0 ∧ t.retentionBytes = 0 then (0, t, dirs)
  else
    match scanPartitions t.retentionMs t.retentionBytes dryRun clock 0 t.partitions dirs with
    | (deleted, partitions, dirs) => (deleted, { t with partitions }, dirs)

def scanTopics (dryRun : Bool) (clock : Bytes → ℕ → Int64) :
    List Bytes → TopicManager → ℕ × TopicManager
  | [], mgr => (0, mgr)
  | name :: rest, mgr =>
    match mgr.getTopic name with
    | none => scanTopics dryRun clock rest mgr
    | some t =>
      match scanTopic t (mgr.partDirs name) dryRun (clock name) with
      | (deleted, t, dirs) =>
        match scanTopics dryRun clock rest (mgr.setTopic name t dirs) with
        | (total, mgr) => (deleted + total, mgr)

/-- An empty `specificTopic` stands for all topics. -/
def runOnePass (mgr : TopicManager) (dryRun : Bool) (specificTopic : Bytes)
    (clock : Bytes → ℕ → Int64) : ℕ × TopicManager :=
  scanTopics dryRun clock (if specificTopic.isEmpty then mgr.topics.keys else [specificTopic]) mgr

end RetentionManager

end StreamForge
