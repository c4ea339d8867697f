import EKuiper.Strconv
import EKuiper.Value
import EKuiper.Function.Slice
import EKuiper.Function.Dedup
import EKuiper.Function.AggCall
import EKuiper.Function.Flag
import EKuiper.Function.Extremum
import EKuiper.Function.Total
import EKuiper.Function.Permutation
import EKuiper.Fmt
import EKuiper.Function.DedupWindow
import EKuiper.Function.Merge
import EKuiper.Server.PluginList
