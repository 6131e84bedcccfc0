/-
# The default catalogue

Parts of dates and times, values of related records, and the statistics of
tables with their variants for blocks.
-/
import FeatureSynth.Template.Basic

namespace FeatureSynth

namespace Template

/-- A template without variants for blocks. -/
def plain (name : String) (family : Family) (slots : List Kind) (result : Kind) : Template :=
  { name, family, result, slots, selection := false, partitionStatistic := none,
    valueStatistic := none }

/-- The statistic `TableX` of one value per record, with both its variants. -/
def statistic (word : String) (value result : Kind) : Template :=
  { name := "Table" ++ word, family := .table, result, slots := [.objectArray, value],
    selection := false, partitionStatistic := some ("TablePartition" ++ word),
    valueStatistic := some ("TableBlock" ++ word) }

/-- The restriction of a table to one part of a partition. -/
def tableSelection : Template :=
  { name := "TableSelection", family := .table, result := .objectArray,
    slots := [.objectArray, .part], selection := true, partitionStatistic := none,
    valueStatistic := none }

/-- The number of records of a table. -/
def tableCount : Template :=
  { name := "TableCount", family := .table, result := .continuous, slots := [.objectArray],
    selection := false, partitionStatistic := some "TablePartitionCount", valueStatistic := none }

end Template

/-- The built-in templates. -/
def Catalogue.default : Catalogue :=
  [ .plain "YearDay" .date [.date] .continuous,
    .plain "WeekDay" .date [.date] .continuous,
    .plain "DecimalTime" .time [.time] .continuous,
    .plain "GetDate" .timestamp [.timestamp] .date,
    .plain "GetTime" .timestamp [.timestamp] .time,
    .plain "LocalTimestamp" .timestampTZ [.timestampTZ] .timestamp,
    .plain "GetValue" .entity [.object, .continuous] .continuous,
    .plain "GetValueC" .entity [.object, .symbol] .symbol,
    .tableSelection,
    .tableCount,
    .statistic "CountDistinct" .symbol .continuous,
    .statistic "Mode" .symbol .symbol,
    .statistic "Mean" .continuous .continuous,
    .statistic "Median" .continuous .continuous,
    .statistic "Min" .continuous .continuous,
    .statistic "Max" .continuous .continuous,
    .statistic "StdDev" .continuous .continuous,
    .statistic "Sum" .continuous .continuous ]

end FeatureSynth
